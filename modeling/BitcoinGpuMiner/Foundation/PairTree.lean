import Mathlib.Data.List.Nodup
import Mathlib.Data.Set.Function

/-! # Trees built by combining neighbours

A level is made from the one below it by combining neighbours, after a last element without a neighbour has been
repeated. Two lists without repetitions whose trees end in the same root are levels of one and the same tree, as
long as the combining function is injective on the pairs that occur in the two trees.
-/

namespace BitcoinGpuMiner.Foundation

set_option autoImplicit false

universe u

namespace PairTree

variable {α : Type u}

def pairs : List α → List (α × α)
  | a :: b :: rest => (a, b) :: pairs rest
  | _ => []

def pad (xs : List α) : List α := if xs.length % 2 = 1 then xs ++ xs.getLast?.toList else xs

def next (combine : α × α → α) (xs : List α) : List α := (pairs (pad xs)).map combine

/-- The two members of some pair are equal; a last element without a neighbour does not count. -/
def Twins (xs : List α) : Prop := ∃ k x, xs[2 * k]? = some x ∧ xs[2 * k + 1]? = some x

/-- `ys` is a level of the tree over `xs`. -/
inductive Level (combine : α × α → α) : List α → List α → Prop where
  | refl (xs : List α) : Level combine xs xs
  | up {xs ys : List α} (hLong : 1 < xs.length) (hRest : Level combine (next combine xs) ys) : Level combine xs ys

section Pairs

theorem pad_odd {xs : List α} (hOdd : xs.length % 2 = 1) : ∃ x ∈ xs, pad xs = xs ++ [x] := by
  have hNe : xs ≠ [] := by
    rintro rfl
    cases hOdd
  refine ⟨xs.getLast hNe, List.getLast_mem hNe, ?_⟩
  rw [pad, if_pos hOdd, List.getLast?_eq_some_getLast hNe, Option.toList_some]

theorem pad_even {xs : List α} (hEven : xs.length % 2 = 0) : pad xs = xs := by rw [pad, if_neg (by omega)]

theorem length_pad (xs : List α) : (pad xs).length % 2 = 0 := by
  rcases Nat.mod_two_eq_zero_or_one xs.length with hEven | hOdd
  · rw [pad_even hEven]
    exact hEven
  · obtain ⟨x, -, hPad⟩ := pad_odd hOdd
    rw [hPad, List.length_append, List.length_singleton]
    omega

theorem flatMap_pairs {xs : List α} (hEven : xs.length % 2 = 0) : (pairs xs).flatMap (fun p => [p.1, p.2]) = xs := by
  induction xs using pairs.induct with
  | case1 a b rest ih =>
    rw [List.length_cons, List.length_cons] at hEven
    rw [pairs, List.flatMap_cons, ih (by omega)]
    rfl
  | case2 xs hShort =>
    match xs with
    | [] => rfl
    | [_] => cases hEven
    | a :: b :: rest => exact absurd rfl (hShort a b rest)

/-- The first elements of the pairs, up to a last element that has been added. -/
theorem sublist_fst_pairs (xs : List α) (x : α) :
    ((pairs xs).map Prod.fst).Sublist xs ∧
      (xs.length % 2 = 1 → ((pairs (xs ++ [x])).map Prod.fst).Sublist xs) := by
  induction xs using pairs.induct with
  | case1 a b rest ih =>
    refine ⟨?_, ?_⟩
    · exact (ih.1.cons b).cons_cons a
    · intro hOdd
      rw [List.length_cons, List.length_cons] at hOdd
      exact ((ih.2 (by omega)).cons b).cons_cons a
  | case2 xs hShort =>
    match xs with
    | [] => exact ⟨List.Sublist.refl _, fun hOdd => by cases hOdd⟩
    | [a] => exact ⟨List.nil_sublist _, fun _ => List.Sublist.refl _⟩
    | a :: b :: rest => exact absurd rfl (hShort a b rest)

theorem nodup_pairs_pad {xs : List α} (hNodup : xs.Nodup) : (pairs (pad xs)).Nodup := by
  rcases Nat.mod_two_eq_zero_or_one xs.length with hEven | hOdd
  · rw [pad_even hEven]
    match xs with
    | [] => exact List.nodup_nil
    | x :: rest => exact List.Nodup.of_map Prod.fst (hNodup.sublist (sublist_fst_pairs (x :: rest) x).1)
  · obtain ⟨x, -, hPad⟩ := pad_odd hOdd
    rw [hPad]
    exact List.Nodup.of_map Prod.fst (hNodup.sublist ((sublist_fst_pairs xs x).2 hOdd))

theorem length_pairs (xs : List α) : (pairs xs).length = xs.length / 2 := by
  induction xs using pairs.induct with
  | case1 a b rest ih =>
    rw [pairs, List.length_cons, List.length_cons, List.length_cons, ih]
    omega
  | case2 xs hShort =>
    match xs with
    | [] => simp [pairs]
    | [_] => simp [pairs]
    | a :: b :: rest => exact absurd rfl (hShort a b rest)

theorem length_next (combine : α × α → α) (xs : List α) : (next combine xs).length = (xs.length + 1) / 2 := by
  rw [next, List.length_map, length_pairs]
  rcases Nat.mod_two_eq_zero_or_one xs.length with hEven | hOdd
  · rw [pad_even hEven]
    omega
  · obtain ⟨x, -, hPad⟩ := pad_odd hOdd
    rw [hPad, List.length_append, List.length_singleton]

/-- The last level: one element is its own root, a longer list has the root of the level above it. -/
def root (combine : α × α → α) : List α → Option α
  | [] => none
  | [x] => some x
  | x :: y :: rest => root combine (next combine (x :: y :: rest))
termination_by xs => xs.length
decreasing_by
  rw [length_next, List.length_cons, List.length_cons]
  omega

theorem root_singleton (combine : α × α → α) (x : α) : root combine [x] = some x := by rw [root]

theorem root_next (combine : α × α → α) {xs : List α} (hLong : 1 < xs.length) :
    root combine xs = root combine (next combine xs) := by
  cases xs with
  | nil => cases hLong
  | cons x xs =>
    cases xs with
    | nil => exact absurd hLong (Nat.lt_irrefl 1)
    | cons y rest => rw [root]

theorem root_eq_of_level {combine : α × α → α} {xs : List α} {x : α} (hLevel : Level combine xs [x]) :
    root combine xs = some x := by
  generalize hTop : [x] = top at hLevel
  induction hLevel with
  | refl xs =>
    rw [← hTop]
    exact root_singleton combine x
  | up hLong _ ih =>
    rw [root_next combine hLong]
    exact ih hTop

/-- Padding repeats an element, so a list without repetitions can be read off its padded form. -/
theorem eq_of_pad_eq {xs ys : List α} (hX : xs.Nodup) (hY : ys.Nodup) (hPad : pad xs = pad ys) : xs = ys := by
  have hNot {xs ys : List α} {x : α} (hMem : x ∈ xs) (hY : ys.Nodup) (hEq : xs ++ [x] = ys) : False := by
    rw [← hEq, List.nodup_append] at hY
    exact hY.2.2 x hMem x (List.mem_singleton_self x) rfl
  rcases Nat.mod_two_eq_zero_or_one xs.length with hEvenX | hOddX <;>
    rcases Nat.mod_two_eq_zero_or_one ys.length with hEvenY | hOddY
  · rw [pad_even hEvenX, pad_even hEvenY] at hPad
    exact hPad
  · obtain ⟨y, hMem, hPadY⟩ := pad_odd hOddY
    rw [pad_even hEvenX, hPadY] at hPad
    exact (hNot hMem hX hPad.symm).elim
  · obtain ⟨x, hMem, hPadX⟩ := pad_odd hOddX
    rw [pad_even hEvenY, hPadX] at hPad
    exact (hNot hMem hY hPad).elim
  · obtain ⟨x, -, hPadX⟩ := pad_odd hOddX
    obtain ⟨y, -, hPadY⟩ := pad_odd hOddY
    rw [hPadX, hPadY] at hPad
    exact (List.append_inj' hPad rfl).1

theorem pad_pad (xs : List α) : pad (pad xs) = pad xs := pad_even (length_pad xs)

end Pairs

section Twins

theorem twins_cons_cons_iff (a b : α) (rest : List α) : Twins (a :: b :: rest) ↔ a = b ∨ Twins rest := by
  constructor
  · rintro ⟨k, x, hLeft, hRight⟩
    cases k with
    | zero =>
      cases hLeft
      cases hRight
      exact .inl rfl
    | succ k => exact .inr ⟨k, x, hLeft, hRight⟩
  · intro hTwins
    cases hTwins with
    | inl hEq => exact ⟨0, a, rfl, congrArg some hEq.symm⟩
    | inr hRest =>
      obtain ⟨k, x, hLeft, hRight⟩ := hRest
      exact ⟨k + 1, x, hLeft, hRight⟩

theorem not_twins_of_short {xs : List α} (hShort : xs.length ≤ 1) : ¬ Twins xs := by
  rintro ⟨k, x, -, hRight⟩
  obtain ⟨hLt, -⟩ := List.getElem?_eq_some_iff.mp hRight
  omega

/-- The copy that pads an odd list is the twin of its last element. -/
theorem twins_pad {xs : List α} (hOdd : xs.length % 2 = 1) : Twins (pad xs) := by
  have hNe : xs ≠ [] := by
    rintro rfl
    cases hOdd
  have hPad : pad xs = xs ++ [xs.getLast hNe] := by
    rw [pad, if_pos hOdd, List.getLast?_eq_some_getLast hNe, Option.toList_some]
  have hLeft : 2 * (xs.length / 2) = xs.length - 1 := by omega
  have hRight : 2 * (xs.length / 2) + 1 = xs.length := by omega
  refine ⟨xs.length / 2, xs.getLast hNe, ?_, ?_⟩
  · rw [hPad, hLeft, List.getElem?_append_left (by omega), ← List.getLast?_eq_getElem?,
      List.getLast?_eq_some_getLast hNe]
  · rw [hPad, hRight, List.getElem?_concat_length]

end Twins

/-- A list without repetitions whose tree combines only pairs of the given set. -/
structure Sound (combine : α × α → α) (S : Set (α × α)) (xs : List α) : Prop where
  nodup : xs.Nodup
  pairs : ∀ ys, Level combine xs ys → 1 < ys.length → ∀ p ∈ PairTree.pairs (pad ys), p ∈ S

section Levels

variable {combine : α × α → α} {S : Set (α × α)} {xs ys : List α}

theorem Sound.next (hInj : Set.InjOn combine S) (hSound : Sound combine S xs) (hLong : 1 < xs.length) :
    Sound combine S (next combine xs) := by
  refine ⟨?_, fun ys hLevel => hSound.pairs ys (.up hLong hLevel)⟩
  have hPairs := hSound.pairs xs (.refl xs) hLong
  apply List.Nodup.map_on
  · intro p hP q hQ hEq
    exact hInj (hPairs p hP) (hPairs q hQ) hEq
  · exact nodup_pairs_pad hSound.nodup

theorem eq_of_map_eq {f : α × α → α} (hInj : Set.InjOn f S) {ps qs : List (α × α)} (hP : ∀ p ∈ ps, p ∈ S)
    (hQ : ∀ q ∈ qs, q ∈ S) (hMap : ps.map f = qs.map f) : ps = qs := by
  induction ps generalizing qs with
  | nil => exact (List.map_eq_nil_iff.mp hMap.symm).symm
  | cons p ps ih =>
    cases qs with
    | nil => cases hMap
    | cons q qs =>
      rw [List.forall_mem_cons] at hP hQ
      obtain ⟨hHead, hTail⟩ := List.cons.inj hMap
      rw [hInj hP.1 hQ.1 hHead, ih hP.2 hQ.2 hTail]

theorem eq_of_next_eq (hInj : Set.InjOn combine S) (hX : Sound combine S xs) (hY : Sound combine S ys)
    (hLongX : 1 < xs.length) (hLongY : 1 < ys.length) (hNext : next combine xs = next combine ys) : xs = ys := by
  have hPairs : pairs (pad xs) = pairs (pad ys) :=
    eq_of_map_eq hInj (hX.pairs xs (.refl xs) hLongX) (hY.pairs ys (.refl ys) hLongY) hNext
  apply eq_of_pad_eq hX.nodup hY.nodup
  rw [← flatMap_pairs (length_pad xs), hPairs, flatMap_pairs (length_pad ys)]

/-- Where the level above `ys` is a level of the tree over the level above `xs`, `ys` is one of the tree over `xs`. -/
theorem Level.down (hInj : Set.InjOn combine S) {zs : List α} (hLevel : Level combine zs (next combine ys))
    (hY : Sound combine S ys) (hLongY : 1 < ys.length) (hX : Sound combine S xs) (hLongX : 1 < xs.length)
    (hNext : next combine xs = zs) : Level combine xs ys := by
  generalize hTop : next combine ys = top at hLevel
  induction hLevel generalizing xs with
  | refl =>
    rw [eq_of_next_eq hInj hX hY hLongX hLongY (hNext.trans hTop.symm)]
    exact .refl ys
  | up hLong _ ih =>
    apply Level.up hLongX
    rw [hNext]
    exact ih (hNext ▸ hX.next hInj hLongX) hLong rfl hTop

/-- Two trees with one root: one is a part of the other. -/
theorem level_or_level (hInj : Set.InjOn combine S) {root : α} (hRootX : Level combine xs [root])
    (hRootY : Level combine ys [root]) (hX : Sound combine S xs) (hY : Sound combine S ys) :
    Level combine ys xs ∨ Level combine xs ys := by
  generalize hTop : [root] = top at hRootX
  induction hRootX generalizing ys with
  | refl =>
    rw [← hTop]
    exact .inl hRootY
  | up hLongX hRestX ih =>
    cases hRootY with
    | refl =>
      rw [hTop]
      exact .inr (.up hLongX hRestX)
    | up hLongY hRestY =>
      rcases ih hRestY (hX.next hInj hLongX) (hY.next hInj hLongY) hTop with hLevel | hLevel
      · exact .inl (hLevel.down hInj hX hLongX hY hLongY rfl)
      · exact .inr (hLevel.down hInj hY hLongY hX hLongX rfl)

theorem Level.combined (hLevel : Level combine xs ys) (hX : Sound combine S xs) (hInj : Set.InjOn combine S) :
    ys = xs ∨ ∀ y ∈ ys, ∃ p ∈ S, combine p = y := by
  induction hLevel with
  | refl => exact .inl rfl
  | @up xs ys hLong _ ih =>
    rcases ih (hX.next hInj hLong) with rfl | hAll
    · refine .inr ?_
      intro y hMem
      obtain ⟨p, hP, rfl⟩ := List.mem_map.mp hMem
      exact ⟨p, hX.pairs xs (.refl xs) hLong p hP, rfl⟩
    · exact .inr hAll

/-- The root of a tree determines its leaves, if none of them is itself combined from a pair. -/
theorem eq_of_root (hInj : Set.InjOn combine S) {root : α} (hRootX : Level combine xs [root])
    (hRootY : Level combine ys [root]) (hX : Sound combine S xs) (hY : Sound combine S ys) (hNeX : xs ≠ [])
    (hNeY : ys ≠ []) (hLeavesX : ∀ x ∈ xs, ∀ p ∈ S, combine p ≠ x) (hLeavesY : ∀ y ∈ ys, ∀ p ∈ S, combine p ≠ y) :
    xs = ys := by
  rcases level_or_level hInj hRootX hRootY hX hY with hLevel | hLevel
  · rcases hLevel.combined hY hInj with hEq | hAll
    · exact hEq
    · obtain ⟨x, hMem⟩ := List.exists_mem_of_ne_nil xs hNeX
      obtain ⟨p, hP, hEq⟩ := hAll x hMem
      exact absurd hEq (hLeavesX x hMem p hP)
  · rcases hLevel.combined hX hInj with hEq | hAll
    · exact hEq.symm
    · obtain ⟨y, hMem⟩ := List.exists_mem_of_ne_nil ys hNeY
      obtain ⟨p, hP, hEq⟩ := hAll y hMem
      exact absurd hEq (hLeavesY y hMem p hP)

end Levels

end PairTree

end BitcoinGpuMiner.Foundation
