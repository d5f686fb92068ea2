import NpcScript.Line.Spacing
import NpcScript.Symbol

/-! # How names are spelled

A name must be one word that is neither a number nor anything in quotes or
brackets. Names in a long list are told apart by number: that the numbers of their
spellings differ is checked in one pass, by their remainders. -/
namespace NpcScript

/-- Letters and digits, a letter first, and not too many. -/
def isIdentifier (cs : List Char) : Bool :=
  cs.head?.any Char.isAlpha && cs.all Char.isAlphanum && decide (cs.length ≤ 63)

/-- One operator, but not `=`. -/
def isSign (cs : List Char) : Bool := cs.length == 1 && cs.all fun x => isOperator x && x != '='

/-- How names of a kind are written. -/
def Kind.writes : Kind → List Char → Bool
  | .operator, cs => isSign cs
  | _, cs => isIdentifier cs

/-- The characters of a name as one number. -/
def spellingNumber (cs : List Char) : Nat := cs.foldl (fun n c => n * 0x100 + c.toNat) 0

/-- Numbers have distinct remainders, other than those seen. One bit is kept for
each remainder. -/
def distinctRemainders (m : Nat) : Nat → List Nat → Bool
  | _, [] => true
  | seen, n :: ns => !seen.testBit (n % m) && distinctRemainders m (seen ||| 1 <<< (n % m)) ns

theorem nodup_of_distinctRemainders {m seen : Nat} {ns : List Nat}
    (h : distinctRemainders m seen ns = true) :
    ns.Nodup ∧ ∀ n ∈ ns, seen.testBit (n % m) = false := by
  induction ns generalizing seen with
  | nil => exact ⟨List.nodup_nil, nofun⟩
  | cons n ns ih =>
    rw [distinctRemainders, Bool.and_eq_true, Bool.not_eq_true'] at h
    obtain ⟨hn, hns⟩ := h
    obtain ⟨hnodup, hseen⟩ := ih hns
    have hbit (k : Nat) (hk : k ∈ ns) : seen.testBit (k % m) = false ∧ n % m ≠ k % m := by
      have := hseen k hk
      rw [Nat.testBit_or, Bool.or_eq_false_iff, Nat.one_shiftLeft, Nat.testBit_two_pow] at this
      simpa using this
    refine ⟨List.nodup_cons.2 ⟨fun hm => (hbit n hm).2 rfl, hnodup⟩, ?_⟩
    exact List.forall_mem_cons.2 ⟨hn, fun k hk => (hbit k hk).1⟩

/-! ## Names letter by letter -/

theorem cons_eq_map_ofList {name : String} {cs : List Char} {names : List String}
    {spelling : List (List Char)} (h : name = String.ofList cs)
    (hrest : names = spelling.map String.ofList) :
    name :: names = (cs :: spelling).map String.ofList := by
  rw [h, hrest, List.map_cons]

theorem eq_map_toList {names : List String} {spelling : List (List Char)}
    (h : names = spelling.map String.ofList) : spelling = names.map String.toList := by
  rw [h, List.map_map]
  simp [Function.comp_def]

/-- Names are distinct if the numbers of their spellings have distinct remainders. -/
theorem nodup_of_spelling {m : Nat} {names : List String} {spelling : List (List Char)}
    (h : names = spelling.map String.ofList)
    (hdistinct : distinctRemainders m 0 (spelling.map spellingNumber) = true) : names.Nodup := by
  rw [eq_map_toList h, List.map_map] at hdistinct
  have hnumbers := (nodup_of_distinctRemainders hdistinct).1
  exact List.Pairwise.of_map _ (fun _ _ hne heq => hne (congrArg _ heq)) hnumbers

end NpcScript
