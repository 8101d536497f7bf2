/-!
# Results that do not fit

The functions here compute with numbers of any size, but an offset of a text is stored in 32 bits,
any other count in 64 bits, and a text may not be longer than half of what 64 bits can count. Work
that comes to a result beyond its bound, or below zero, is given up at that step. The steps that are
checked are those where the numbers come from a user, or where they are subtracted: no other one can
go beyond its bound for a file that fits into memory.

Two other kinds of numbers have 32 bits as well. The numbers in the arena of a tree are checked where
they are stored, and a tree that is too large is refused. The places among the events of a parser are
not checked: from 2 ^ 32 on they begin at zero again.
-/

namespace NginxConf

/-- The step whose result does not fit. -/
inductive Overflow
  | addition
  /-- The result would be negative. -/
  | subtraction
  | multiplication
  /-- A text would grow too long. -/
  | capacity
deriving DecidableEq, Repr

namespace Overflow

/-- What is said when work is given up. -/
def message : Overflow → String
  | addition => "attempt to add with overflow"
  | subtraction => "attempt to subtract with overflow"
  | multiplication => "attempt to multiply with overflow"
  | capacity => "capacity overflow"

/-- The first number that is no offset of a text. -/
def offsetBound : Nat := 4294967296

/-- The first number that is no count. -/
def countBound : Nat := 18446744073709551616

/-- The first number that is no length of a text under construction. -/
def lengthBound : Nat := 9223372036854775808

end Overflow

end NginxConf
