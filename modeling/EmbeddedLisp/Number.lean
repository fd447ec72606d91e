import EmbeddedLisp.Number.Binary64
import EmbeddedLisp.Number.Fixnum

/-! Numbers of either kind. -/
namespace EmbeddedLisp

inductive Number where
  | integer (value : Fixnum)
  | float (value : Binary64)
deriving DecidableEq

namespace Number

/-- The float nearest to a number, which is the number itself if it is a float. -/
def toBinary64 : Number → Binary64
  | .integer n => .ofInt n.toInt
  | .float x => x

def isFloat : Number → Bool
  | .integer _ => false
  | .float _ => true

/-- Integers are compared exactly, and other pairs as floats. -/
def compare? : Number → Number → Option Ordering
  | .integer a, .integer b => some (compare a.toInt b.toInt)
  | a, b => a.toBinary64.compare? b.toBinary64

end Number

end EmbeddedLisp
