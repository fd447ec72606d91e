import EmbeddedLisp.Procedure.Operation

/-! Procedures that a host program adds to the language. -/
namespace EmbeddedLisp

namespace HostProcedure

/-- What a host procedure answers: a value, and definitions to be made in the frame that it was
called from. -/
structure Answer where
  value : Value
  definitions : List (String × Value) := []

end HostProcedure

/-- A procedure of the host. It is given its arguments and may ask which names are bound in the very
frame that it is called from. -/
structure HostProcedure where
  name : String
  run : List Value → (isBound : String → Bool) → Except Fault HostProcedure.Answer

/-- A procedure that depends on nothing but its arguments. -/
def HostProcedure.ofOperation (name : String) (operation : Operation) : HostProcedure :=
  ⟨name, fun arguments _ => return { value := ← operation.call arguments }⟩

/-- The procedures that a host has to offer. -/
abbrev Host := List HostProcedure

def Host.procedure? (host : Host) (name : String) : Option HostProcedure :=
  host.find? (·.name = name)

end EmbeddedLisp
