import BitcoinGpuMiner.Foundation.Cursor

/-! # Words that end by themselves

`Separates good write` says that the word of a good value can be told from whatever follows it. A parser that reads
every word back shows it, and lists of such words written one after the other can be taken apart again.
-/

namespace BitcoinGpuMiner.Foundation

set_option autoImplicit false

universe u

def Separates {α β : Type u} (good : α → Prop) (write : α → List β) : Prop :=
  ∀ a b : α, good a → good b → ∀ x y : List β, write a ++ x = write b ++ y → a = b ∧ x = y

namespace Separates

variable {ε α β : Type u} {good : α → Prop} {write : α → List β}

theorem of_reads {p : Parser ε β α} (hReads : ∀ a, good a → Reads p (write a) a)
    (hShort : ∀ a, good a → (write a).length < 2 ^ 32) : Separates good write := by
  intro a b hA hB x y hEq
  have hFirst := (hReads a hA).run (hShort a hA) x
  rw [hEq, (hReads b hB).run (hShort b hB) y] at hFirst
  obtain rfl : b = a := congrArg Prod.fst (Except.ok.inj hFirst)
  exact ⟨rfl, List.append_cancel_left hEq⟩

theorem eq_of_write_eq (hSeparates : Separates good write) {a b : α} (hA : good a) (hB : good b)
    (hEq : write a = write b) : a = b := by
  refine (hSeparates a b hA hB [] [] ?_).1
  rw [hEq]

/-- No word may be empty, or the number of words could not be seen. -/
theorem eq_of_flatMap_eq (hSeparates : Separates good write) (hSome : ∀ a, write a ≠ []) {as bs : List α}
    (hAs : ∀ a ∈ as, good a) (hBs : ∀ b ∈ bs, good b) (hEq : as.flatMap write = bs.flatMap write) : as = bs := by
  induction as generalizing bs with
  | nil =>
    cases bs with
    | nil => rfl
    | cons b bs => exact absurd (List.append_eq_nil_iff.mp hEq.symm).1 (hSome b)
  | cons a as ih =>
    cases bs with
    | nil => exact absurd (List.append_eq_nil_iff.mp hEq).1 (hSome a)
    | cons b bs =>
      obtain ⟨hA, hRestA⟩ := List.forall_mem_cons.mp hAs
      obtain ⟨hB, hRestB⟩ := List.forall_mem_cons.mp hBs
      rw [List.flatMap_cons, List.flatMap_cons] at hEq
      obtain ⟨rfl, hRest⟩ := hSeparates a b hA hB _ _ hEq
      rw [ih hRestA hRestB hRest]

/-- Where the number of words is known, what follows the list is told from it too. -/
theorem flatMap_append_inj (hSeparates : Separates good write) {as bs : List α} (hLength : as.length = bs.length)
    (hAs : ∀ a ∈ as, good a) (hBs : ∀ b ∈ bs, good b) {x y : List β}
    (hEq : as.flatMap write ++ x = bs.flatMap write ++ y) : as = bs ∧ x = y := by
  induction as generalizing bs with
  | nil =>
    obtain rfl := List.length_eq_zero_iff.mp hLength.symm
    exact ⟨rfl, hEq⟩
  | cons a as ih =>
    cases bs with
    | nil => cases hLength
    | cons b bs =>
      obtain ⟨hA, hRestA⟩ := List.forall_mem_cons.mp hAs
      obtain ⟨hB, hRestB⟩ := List.forall_mem_cons.mp hBs
      rw [List.flatMap_cons, List.flatMap_cons, List.append_assoc, List.append_assoc] at hEq
      obtain ⟨rfl, hRest⟩ := hSeparates a b hA hB _ _ hEq
      obtain ⟨rfl, hTail⟩ := ih (Nat.succ.inj hLength) hRestA hRestB hRest
      exact ⟨rfl, hTail⟩

theorem eq_of_map_flatMap_eq (hSeparates : Separates good write) (hSome : ∀ a, write a ≠ []) {as bs : Option (List α)}
    (hAs : ∀ list ∈ as, ∀ a ∈ list, good a) (hBs : ∀ list ∈ bs, ∀ b ∈ list, good b)
    (hEq : as.map (List.flatMap write) = bs.map (List.flatMap write)) : as = bs := by
  cases as with
  | none => exact (Option.map_eq_none_iff.mp hEq.symm).symm
  | some as =>
    obtain ⟨bs, rfl, hLists⟩ := Option.map_eq_some_iff.mp hEq.symm
    rw [hSeparates.eq_of_flatMap_eq hSome (hAs as rfl) (hBs bs rfl) hLists.symm]

end Separates

end BitcoinGpuMiner.Foundation
