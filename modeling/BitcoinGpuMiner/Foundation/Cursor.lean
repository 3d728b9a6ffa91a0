import Mathlib.Algebra.Order.Ring.Int
import Mathlib.Data.List.Basic

/-! # Reading a buffer in order

A parser moves a cursor through a list. A read that asks for more than is left does not move it, gives back
what its target held before, and leaves a mark. The position has 32 bits, so behind the first 4 GiB it starts again
at zero. `Reads p w a` says that `p`, standing before `w` and with `w` ending before that, returns `a` and stands
behind `w` afterwards, whatever comes before and after; it is closed under the ways parsers are built. `Consumes p rel`
is the other direction: when `p` returns from a list it can hold the positions of and no read was short, it has gone
over a word that `rel` relates to the result.
-/

namespace BitcoinGpuMiner.Foundation

set_option autoImplicit false

universe u

structure Cursor (β : Type u) where
  data : List β
  pos : UInt32
  short : Bool

abbrev Parser (ε β α : Type u) := StateT (Cursor β) (Except ε) α

namespace Parser

variable {ε β α γ : Type u}

def read (target : List β) : Parser ε β (List β) := fun cursor =>
  if target.isEmpty then .ok (target, cursor)
  else if cursor.pos.toNat + target.length > cursor.data.length then .ok (target, { cursor with short := true })
  else .ok ((cursor.data.drop cursor.pos.toNat).take target.length,
    { cursor with pos := cursor.pos + .ofNat target.length })

def each (p : α → Parser ε β γ) : List α → Parser ε β (List γ)
  | [] => pure []
  | a :: rest => do
    let c ← p a
    let cs ← each p rest
    pure (c :: cs)

def many (p : Parser ε β α) (count : Nat) : Parser ε β (List α) :=
  each (fun _ : PUnit.{u + 1} => p) (List.replicate count ⟨⟩)

theorem run_bind {p : Parser ε β α} {f : α → Parser ε β γ} {cursor next : Cursor β} {a : α}
    (hRun : p cursor = .ok (a, next)) : (p >>= f) cursor = f a next := by
  have hBind : (p >>= f) cursor = p cursor >>= fun next => f next.1 next.2 := rfl
  rw [hBind, hRun]
  rfl

theorem exists_of_bind {p : Parser ε β α} {f : α → Parser ε β γ} {cursor last : Cursor β} {c : γ}
    (hRun : (p >>= f) cursor = .ok (c, last)) : ∃ a next, p cursor = .ok (a, next) ∧ f a next = .ok (c, last) := by
  have hBind : (p >>= f) cursor = p cursor >>= fun next => f next.1 next.2 := rfl
  rw [hBind] at hRun
  cases hFirst : p cursor with
  | error e =>
    rw [hFirst] at hRun
    cases hRun
  | ok middle =>
    rw [hFirst] at hRun
    exact ⟨middle.1, middle.2, rfl, hRun⟩

/-- A single read needs no more than that its first position has 32 bits. -/
theorem read_word {target w : List β} (hLength : target.length = w.length) {pre tail : List β} {short : Bool}
    (hStart : pre.length < 2 ^ 32) : (read target : Parser ε β _) ⟨pre ++ w ++ tail, .ofNat pre.length, short⟩ =
      .ok (w, ⟨pre ++ w ++ tail, .ofNat (pre.length + w.length), short⟩) := by
  have hPos : (UInt32.ofNat pre.length).toNat = pre.length := UInt32.toNat_ofNat_of_lt' hStart
  rw [read]
  dsimp only
  rw [hPos]
  split
  case isTrue hEmpty =>
    rw [List.isEmpty_iff] at hEmpty
    rw [hEmpty, List.length_nil] at hLength
    rw [List.length_eq_zero_iff.mp hLength.symm, hEmpty]
    rfl
  case isFalse =>
    rw [if_neg, hLength, List.append_assoc, List.drop_left, List.take_left, UInt32.ofNat_add]
    rw [List.length_append, List.length_append, hLength]
    omega

theorem run_each_append {p : α → Parser ε β γ} {xs ys : List α} {cs ds : List γ} {cursor next last : Cursor β}
    (hFirst : each p xs cursor = .ok (cs, next)) (hSecond : each p ys next = .ok (ds, last)) :
    each p (xs ++ ys) cursor = .ok (cs ++ ds, last) := by
  induction xs generalizing cs cursor with
  | nil =>
    cases hFirst
    exact hSecond
  | cons x xs ih =>
    obtain ⟨c, middle, hHead, hRest⟩ := exists_of_bind hFirst
    obtain ⟨rest, _, hTail, hPure⟩ := exists_of_bind hRest
    cases hPure
    rw [List.cons_append, each, run_bind hHead, run_bind (ih hTail)]
    rfl

theorem run_many_succ {p : Parser ε β α} {count : Nat} {as : List α} {a : α} {cursor next last : Cursor β}
    (hFirst : many p count cursor = .ok (as, next)) (hLast : p next = .ok (a, last)) :
    many p (count + 1) cursor = .ok (as ++ [a], last) := by
  have hOne : each (fun _ : PUnit.{u + 1} => p) [⟨⟩] next = .ok ([a], last) := by
    rw [each, run_bind hLast]
    rfl
  rw [many, List.replicate_succ']
  exact run_each_append hFirst hOne

end Parser

def Reads {ε β α : Type u} (p : Parser ε β α) (w : List β) (a : α) : Prop :=
  ∀ (pre tail : List β) (short : Bool), pre.length + w.length < 2 ^ 32 →
    p ⟨pre ++ w ++ tail, .ofNat pre.length, short⟩ =
      .ok (a, ⟨pre ++ w ++ tail, .ofNat (pre.length + w.length), short⟩)

/-- The same where the last read, at `start` in `w`, may end behind the positions of 32 bits. -/
def ReadsFrom {ε β α : Type u} (p : Parser ε β α) (start : Nat) (w : List β) (a : α) : Prop :=
  ∀ (pre tail : List β) (short : Bool), pre.length + start < 2 ^ 32 →
    p ⟨pre ++ w ++ tail, .ofNat pre.length, short⟩ =
      .ok (a, ⟨pre ++ w ++ tail, .ofNat (pre.length + w.length), short⟩)

section From

variable {ε β α γ : Type u} {p : Parser ε β α} {w w' : List β} {a : α} {start : Nat}

theorem Reads.bindFrom {f : α → Parser ε β γ} {c : γ} (hFirst : Reads p w a) (hSecond : ReadsFrom (f a) start w' c) :
    ReadsFrom (p >>= f) (w.length + start) (w ++ w') c := by
  intro pre tail short hBound
  have hAll : pre ++ (w ++ w') ++ tail = pre ++ w ++ (w' ++ tail) := by simp only [List.append_assoc]
  have hNext := hSecond (pre ++ w) tail short (by rw [List.length_append]; omega)
  rw [List.append_assoc (pre ++ w), List.length_append] at hNext
  rw [hAll, List.length_append, ← Nat.add_assoc, ← hNext]
  exact Parser.run_bind (hFirst pre (w' ++ tail) short (by omega))

theorem ReadsFrom.reads (hReads : ReadsFrom p start w a) (hStart : start ≤ w.length) : Reads p w a := by
  intro pre tail short hBound
  exact hReads pre tail short (by omega)

theorem ReadsFrom.map {f : α → γ} (hReads : ReadsFrom p start w a) :
    ReadsFrom (p >>= fun a => pure (f a)) start w (f a) := by
  intro pre tail short hBound
  rw [Parser.run_bind (hReads pre tail short hBound)]
  rfl

theorem ReadsFrom.target {target : List β} (hLength : target.length = w.length) :
    ReadsFrom (Parser.read target : Parser ε β _) 0 w w := by
  intro pre tail short hBound
  exact Parser.read_word hLength hBound

end From

namespace Reads

variable {ε β α γ : Type u} {p : Parser ε β α} {w w' : List β} {a : α}

theorem ret (a : α) : Reads (pure a : Parser ε β α) [] a := fun _ _ _ _ => rfl

theorem bind {f : α → Parser ε β γ} {c : γ} (hFirst : Reads p w a) (hSecond : Reads (f a) w' c) :
    Reads (p >>= f) (w ++ w') c := by
  have hBoth : ReadsFrom (p >>= f) (w.length + w'.length) (w ++ w') c := hFirst.bindFrom hSecond
  rw [← List.length_append] at hBoth
  exact hBoth

theorem map {f : α → γ} (hReads : Reads p w a) : Reads (p >>= fun a => pure (f a)) w (f a) := by
  have hBoth : Reads (p >>= fun a => pure (f a)) (w ++ []) (f a) := hReads.bind (ret (f a))
  rw [List.append_nil] at hBoth
  exact hBoth

theorem target {target : List β} (hLength : target.length = w.length) : Reads (Parser.read target : Parser ε β _) w w :=
  (ReadsFrom.target hLength).reads (Nat.zero_le _)

theorem each {ι : Type u} {p : α → Parser ε β γ} {key : ι → α} {write : ι → List β} {value : ι → γ} (items : List ι)
    (hItems : ∀ item ∈ items, Reads (p (key item)) (write item) (value item)) :
    Reads (Parser.each p (items.map key)) (items.flatMap write) (items.map value) := by
  induction items with
  | nil => exact ret []
  | cons item rest ih =>
    obtain ⟨hItem, hRest⟩ := List.forall_mem_cons.mp hItems
    rw [List.flatMap_cons, List.map_cons, List.map_cons, Parser.each]
    exact hItem.bind (ih hRest).map

theorem many {ι : Type u} {write : ι → List β} {value : ι → α} (items : List ι)
    (hItems : ∀ item ∈ items, Reads p (write item) (value item)) :
    Reads (Parser.many p items.length) (items.flatMap write) (items.map value) := by
  rw [Parser.many, ← List.map_const']
  exact each items hItems

/-- Only the last item is allowed to go beyond the positions of 32 bits. -/
theorem manyFrom {ι : Type u} {write : ι → List β} {value : ι → α} {start : Nat} {front : List ι} {last : ι}
    (hFront : ∀ item ∈ front, Reads p (write item) (value item)) (hLast : ReadsFrom p start (write last) (value last)) :
    ReadsFrom (Parser.many p (front ++ [last]).length) ((front.flatMap write).length + start)
      ((front ++ [last]).flatMap write) ((front ++ [last]).map value) := by
  induction front with
  | nil =>
    rw [List.flatMap_nil, List.length_nil, Nat.zero_add, List.nil_append, List.flatMap_singleton]
    exact hLast.map
  | cons item rest ih =>
    obtain ⟨hItem, hRest⟩ := List.forall_mem_cons.mp hFront
    have hMany : Parser.many p (item :: rest ++ [last]).length = p >>= fun a =>
        Parser.many p (rest ++ [last]).length >>= fun as => pure (a :: as) := rfl
    have hStart : ((item :: rest).flatMap write).length + start =
        (write item).length + ((rest.flatMap write).length + start) := by
      rw [List.flatMap_cons, List.length_append, Nat.add_assoc]
    rw [hMany, hStart]
    exact hItem.bindFrom (ih hRest).map

theorem run (hReads : Reads p w a) (hBound : w.length < 2 ^ 32) (tail : List β) :
    p ⟨w ++ tail, 0, false⟩ = .ok (a, ⟨w ++ tail, .ofNat w.length, false⟩) := by
  have hStart := hReads [] tail false
  rw [List.nil_append, List.length_nil, Nat.zero_add] at hStart
  exact hStart hBound

theorem run_all (hReads : Reads p w a) (hBound : w.length < 2 ^ 32) :
    p ⟨w, 0, false⟩ = .ok (a, ⟨w, .ofNat w.length, false⟩) := by
  have hRun := hReads.run hBound []
  rw [List.append_nil] at hRun
  exact hRun

end Reads

def Consumes {ε β α : Type u} (p : Parser ε β α) (rel : α → List β → Prop) : Prop :=
  ∀ (cursor next : Cursor β) (a : α), cursor.data.length < 2 ^ 32 → p cursor = .ok (a, next) →
    next.data = cursor.data ∧ (next.short = false → cursor.short = false ∧
      ∃ w rest, cursor.data.drop cursor.pos.toNat = w ++ rest ∧
        next.pos.toNat = cursor.pos.toNat + w.length ∧ rel a w)

namespace Consumes

variable {ε β α γ : Type u} {p : Parser ε β α} {rel : α → List β → Prop}

theorem ret (a : α) : Consumes (pure a : Parser ε β α) (fun c w => c = a ∧ w = []) := by
  intro cursor next c _ hEq
  cases hEq
  exact ⟨rfl, fun hShort => ⟨hShort, [], cursor.data.drop cursor.pos.toNat, rfl, rfl, rfl, rfl⟩⟩

theorem fault (e : ε) : Consumes (throw e : Parser ε β α) rel := by
  intro cursor next a _ hEq
  cases hEq

theorem mono {rel' : α → List β → Prop} (hConsumes : Consumes p rel) (hMono : ∀ a w, rel a w → rel' a w) :
    Consumes p rel' := by
  intro cursor next a hBound hEq
  obtain ⟨hData, hWord⟩ := hConsumes cursor next a hBound hEq
  refine ⟨hData, ?_⟩
  intro hShort
  obtain ⟨hBefore, w, rest, hDrop, hPos, hRel⟩ := hWord hShort
  exact ⟨hBefore, w, rest, hDrop, hPos, hMono a w hRel⟩

theorem bind {f : α → Parser ε β γ} {relNext : α → γ → List β → Prop} (hFirst : Consumes p rel)
    (hSecond : ∀ a, Consumes (f a) (relNext a)) :
    Consumes (p >>= f) (fun c w => ∃ a w₁ w₂, rel a w₁ ∧ relNext a c w₂ ∧ w = w₁ ++ w₂) := by
  intro cursor next c hBound hEq
  obtain ⟨a, middle, hP, hF⟩ := Parser.exists_of_bind hEq
  obtain ⟨hMiddle, hWord₁⟩ := hFirst cursor middle a hBound hP
  obtain ⟨hNext, hWord₂⟩ := hSecond a middle next c (by rw [hMiddle]; exact hBound) hF
  refine ⟨hNext.trans hMiddle, ?_⟩
  intro hShort
  obtain ⟨hBetween, w₂, rest, hDrop, hPos, hRelNext⟩ := hWord₂ hShort
  obtain ⟨hBefore, w₁, rest₁, hDrop₁, hPos₁, hRel⟩ := hWord₁ hBetween
  rw [hMiddle, hPos₁, ← List.drop_drop, hDrop₁, List.drop_left] at hDrop
  refine ⟨hBefore, w₁ ++ w₂, rest, ?_, ?_, a, w₁, w₂, hRel, hRelNext, rfl⟩
  · rw [hDrop₁, hDrop, List.append_assoc]
  · rw [hPos, hPos₁, List.length_append, Nat.add_assoc]

theorem map {f : α → γ} (hConsumes : Consumes p rel) :
    Consumes (p >>= fun a => pure (f a)) (fun c w => ∃ a, c = f a ∧ rel a w) := by
  refine (hConsumes.bind fun a => ret (f a)).mono ?_
  rintro c w ⟨a, w₁, w₂, hRel, ⟨hC, rfl⟩, rfl⟩
  exact ⟨a, hC, by rwa [List.append_nil]⟩

theorem target (target : List β) :
    Consumes (Parser.read target : Parser ε β _) (fun a w => a = w ∧ w.length = target.length) := by
  intro cursor next a hBound hEq
  rw [Parser.read] at hEq
  split at hEq
  case isTrue hEmpty =>
    cases hEq
    rw [List.isEmpty_iff.mp hEmpty]
    exact ⟨rfl, fun hShort => ⟨hShort, [], cursor.data.drop cursor.pos.toNat, rfl, rfl, rfl, rfl⟩⟩
  split at hEq
  case isTrue =>
    cases hEq
    refine ⟨rfl, ?_⟩
    intro hShort
    cases hShort
  case isFalse hEnough =>
    cases hEq
    have hLength : ((cursor.data.drop cursor.pos.toNat).take target.length).length = target.length := by
      rw [List.length_take, List.length_drop]
      omega
    -- the list is short enough for the position not to start again
    have hPos : (cursor.pos + .ofNat target.length).toNat = cursor.pos.toNat + target.length := by
      rw [UInt32.toNat_add, UInt32.toNat_ofNat_of_lt' (show _ < 2 ^ 32 by omega), Nat.mod_eq_of_lt (by omega)]
    refine ⟨rfl, fun hShort => ⟨hShort, _, (cursor.data.drop cursor.pos.toNat).drop target.length,
      (List.take_append_drop _ _).symm, ?_, rfl, hLength⟩⟩
    rw [hLength]
    exact hPos

theorem each {κ : Type u} {p : α → Parser ε β γ} {key : γ → κ} {source : α → κ} {write : γ → List β} {good : γ → Prop}
    (hItem : ∀ a, Consumes (p a) (fun c w => key c = source a ∧ w = write c ∧ good c)) (items : List α) :
    Consumes (Parser.each p items)
      (fun cs w => cs.map key = items.map source ∧ w = cs.flatMap write ∧ ∀ c ∈ cs, good c) := by
  induction items with
  | nil =>
    refine (ret []).mono ?_
    rintro cs w ⟨rfl, rfl⟩
    exact ⟨rfl, rfl, fun _ hNil => absurd hNil List.not_mem_nil⟩
  | cons a rest ih =>
    rw [Parser.each]
    refine ((hItem a).bind fun c => ih.map).mono ?_
    rintro cs w ⟨c, w₁, w₂, ⟨hKey, rfl, hGood⟩, ⟨cs, rfl, hKeys, rfl, hGoods⟩, rfl⟩
    refine ⟨?_, List.flatMap_cons.symm, List.forall_mem_cons.mpr ⟨hGood, hGoods⟩⟩
    rw [List.map_cons, List.map_cons, hKey, hKeys]

theorem many {write : α → List β} {good : α → Prop} (hItem : Consumes p (fun a w => w = write a ∧ good a)) (count : Nat) :
    Consumes (Parser.many p count) (fun as w => as.length = count ∧ w = as.flatMap write ∧ ∀ a ∈ as, good a) := by
  let key (_ : α) : PUnit.{u + 1} := ⟨⟩
  have hKeyed (place : PUnit.{u + 1}) : Consumes p (fun a w => key a = place ∧ w = write a ∧ good a) :=
    hItem.mono fun a w hRel => ⟨rfl, hRel⟩
  refine (each hKeyed (List.replicate count ⟨⟩)).mono ?_
  rintro as w ⟨hKeys, hRel⟩
  refine ⟨?_, hRel⟩
  have hLength := congrArg List.length hKeys
  rwa [List.length_map, List.length_map, List.length_replicate] at hLength

/-- A position that is the length of the list shows that the list is short enough. -/
theorem all (hConsumes : Consumes p rel) {data : List β} {pos : UInt32} {a : α} (hEnd : pos.toNat = data.length)
    (hRun : p ⟨data, 0, false⟩ = .ok (a, ⟨data, pos, false⟩)) : rel a data := by
  have hBound : data.length < 2 ^ 32 := by
    rw [← hEnd]
    exact pos.toNat_lt
  obtain ⟨-, w, rest, hDrop, hPos, hRel⟩ := (hConsumes _ _ a hBound hRun).2 rfl
  have hLength : data.length = 0 + w.length := hEnd.symm.trans hPos
  have hDrop : data = w ++ rest := hDrop
  rw [hDrop, List.length_append] at hLength
  have hRest : rest = [] := List.length_eq_zero_iff.mp (by omega)
  rw [hRest, List.append_nil] at hDrop
  rw [hDrop]
  exact hRel

end Consumes

end BitcoinGpuMiner.Foundation
