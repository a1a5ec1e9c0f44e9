/-!
# Sets of characters

A `CharSet` is a finite set of characters, held as a list in strictly ascending order, so that
two sets with the same members are equal.
-/

namespace Peg

/-- A finite set of characters: its members in strictly ascending order. -/
structure CharSet where
  /-- The members. -/
  chars : List Char
  /-- The members ascend. -/
  ascending : chars.Pairwise (fun c d => c.toNat < d.toNat)
deriving DecidableEq

namespace CharSet

/-- Puts a character into an ascending list, unless it is there already. -/
def insertChar (c : Char) : List Char → List Char
  | [] => [c]
  | d :: ds =>
    if c.toNat < d.toNat then c :: d :: ds
    else if c = d then d :: ds
    else d :: insertChar c ds

theorem mem_insertChar {c x : Char} {ds : List Char} :
  x ∈ insertChar c ds ↔ x = c ∨ x ∈ ds
  := by
  induction ds with
  | nil => simp [insertChar]
  | cons d ds ih =>
    simp only [insertChar]
    split
    · simp
    · split
      · next h => simp [h]
      · simp only [List.mem_cons, ih]
        exact or_left_comm

theorem insertChar_ascending {c : Char} {ds : List Char}
    (h : ds.Pairwise (fun c d => c.toNat < d.toNat)) :
  (insertChar c ds).Pairwise (fun c d => c.toNat < d.toNat)
  := by
  induction ds with
  | nil => simp [insertChar]
  | cons d ds ih =>
    obtain ⟨hd, hds⟩ := List.pairwise_cons.1 h
    simp only [insertChar]
    split
    · next hc =>
      refine List.pairwise_cons.2 ⟨?_, h⟩
      intro x hx
      rcases List.mem_cons.1 hx with rfl | hx
      · exact hc
      · exact Nat.lt_trans hc (hd x hx)
    · next hc =>
      split
      · exact h
      · next hne =>
        refine List.pairwise_cons.2 ⟨?_, ih hds⟩
        intro x hx
        rcases mem_insertChar.1 hx with rfl | hx
        · have : d.toNat ≠ x.toNat := fun e => hne (Char.toNat_inj.1 e).symm
          omega
        · exact hd x hx

/-- The members of a list, in strictly ascending order. -/
def sortedChars (cs : List Char) : List Char :=
  cs.foldr insertChar []

theorem sortedChars_ascending (cs : List Char) :
  (sortedChars cs).Pairwise (fun c d => c.toNat < d.toNat)
  := by
  induction cs with
  | nil => exact List.Pairwise.nil
  | cons c cs ih => exact insertChar_ascending ih

/-- The set of the characters of a list. -/
def ofList (cs : List Char) : CharSet :=
  ⟨sortedChars cs, sortedChars_ascending cs⟩

/-- Whether a character is in the set. -/
def contains (s : CharSet) (c : Char) : Bool :=
  s.chars.contains c

/-- The set of the characters of a list contains exactly them. -/
@[simp]
theorem contains_ofList {cs : List Char} {c : Char} :
  (ofList cs).contains c = cs.contains c
  := by
  have h : ∀ ds : List Char, c ∈ sortedChars ds ↔ c ∈ ds := by
    intro ds
    induction ds with
    | nil => simp [sortedChars]
    | cons d ds ih =>
      simp only [sortedChars, List.foldr_cons, mem_insertChar, List.mem_cons] at ih ⊢
      rw [ih]
  rw [Bool.eq_iff_iff]
  simp [contains, ofList, h]

end CharSet

end Peg
