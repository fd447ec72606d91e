import EmbeddedLisp.Host

/-! A host with a procedure for each way to take arguments, to give answers and to fail. -/
namespace EmbeddedLisp.Host

namespace Sample

/-- A procedure without parameters. -/
def answer : Operation := .typed [] fun () => .ok (.integer ⟨42, by decide⟩)

def halve : Operation :=
  .typed [.float] fun (x, ()) => .ok (.float (x.div (.ofInt 2)))

/-- A procedure with an error of its own. -/
def increment : Operation :=
  .typed [.integer] fun (n, ()) =>
    match n.add? 1 with
    | some sum => .ok (.integer sum)
    | none => .error (.reported "host overflow")

/-- Tells the two kinds of numbers apart. -/
def numberKind : Operation :=
  .typed [.number] fun (n, ()) =>
    .ok (.text (if n.isFloat then Kind.float.name else Kind.integer.name))

def second : Operation := .typed [.number, .number] fun (_, n, ()) => .ok n.toValue

def last : Operation :=
  .typed [.list] fun (vs, ()) =>
    match vs.getLast? with
    | some v => .ok v
    | none => .error (.reported "empty list")

/-- The integer moved up to the lower bound if it is below, and then down to the upper bound if it
is above. -/
def clamp : Operation :=
  .typed [.integer, .integer, .integer] fun (n, lower, upper, ()) =>
    let raised := if n.toInt < lower.toInt then lower else n
    .ok (.integer (if upper.toInt < raised.toInt then upper else raised))

/-- The number of values in a list, as an integer. -/
def count (vs : List Value) : Except Fault Value :=
  match Fixnum.ofInt? vs.length with
  | some n => .ok (.integer n)
  | none => .error (.reported "too many values")

def collect : Operation :=
  .typed [.any, .number, .float, .list] fun (v, n, x, vs, ()) => do
    return .list [v, .float n.toBinary64, .float x, ← count vs]

/-- Fails with what it is given, whatever that is. -/
def failWith : Operation := .typed [.any] fun (v, ()) => .error (.reported v.render)

def countArguments : Operation := .variadic .any count

/-- Defines a name where it is called from, and tells whether the name was bound there before. -/
def define : HostProcedure where
  name := "host-define"
  run
    | [.text name, v], isBound =>
      .ok { value := .boolean (isBound name), definitions := [(name, v)] }
    | arguments, _ =>
      .error (.reported ("expected name and value arguments, got " ++ toString arguments.length))

end Sample

open Sample in
/-- The procedures of the sample, in the order in which they are installed. -/
def sample : Host :=
  [.ofOperation "host-answer" answer,
    .ofOperation "host-halve" halve,
    .ofOperation "host-inc" increment,
    .ofOperation "host-kind" numberKind,
    .ofOperation "host-second" second,
    .ofOperation "host-last" last,
    .ofOperation "host-clamp" clamp,
    .ofOperation "host-quad" collect,
    .ofOperation "host-fail" failWith,
    .ofOperation "host-count" countArguments,
    define]

end EmbeddedLisp.Host
