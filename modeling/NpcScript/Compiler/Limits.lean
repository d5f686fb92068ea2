/-! # Limits

A host may bound what it accepts. Lengths of a source count bytes, those of
lines and words count characters. -/
namespace NpcScript

structure Limits where
  maxSource : Nat := 65536
  maxLine : Nat := 1024
  maxWord : Nat := 63
  maxWords : Nat := 4096
  deriving DecidableEq, Repr

end NpcScript
