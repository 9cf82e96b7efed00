import AptosCore.Types.NibblePath

/-!
# Walking a nibble path

`NibbleIterator` and `BitIterator` (types/src/nibble/nibble_path) hold a
`Range<usize>` of indices into a path and read each index with `get_nibble` or
`get_bit` as `next` takes it off the front. `IndexRange.nextMap` is that `next`,
shared by both, and `collectMap` runs it to the end, as `collect` does; it reads
every index of the range in turn (`collectMap_eq`).

On a well-formed path the iterators walk the list of nibbles: `nibbles` yields
`toNibbles p` and `bits` the bits of those nibbles, the top bit of each first
(`collect_nibbles`, `collect_bits`); for the path of a key,
`new_even(key.to_vec()).nibbles()` yields the 64 nibbles that the tree's model
walks (`newEven_toVec`). `get_nibble_path` cuts the nibbles the
iterator covers out as a new path (`getNibblePath_eq`). `skip_common_prefix`
advances two peekable iterators past the nibbles they agree on and counts them
(`skipCommonPrefix_eq`). It is generic over the `Peekable` trait, which here
carries the measure each `next` lowers, so that the loop stops for every
iterator type; `InBounds` is what an iterator needs for its reads not to panic.
-/

namespace AptosCore.Types

/-- `std::ops::Range<usize>`: the indices from `start` up to `stop`, exclusive. -/
structure IndexRange where
  start : Nat
  stop : Nat
  deriving DecidableEq, Repr

namespace IndexRange

/-- `self.pos.next().map(|i| read(i))`, the `next` of both iterators: the read of
the first index and the range after it, `none` where the read panics. -/
def nextMap {α : Type} (read : Nat → Option α) (pos : IndexRange) : Option (Option α × IndexRange) :=
  if pos.start < pos.stop then (read pos.start).map fun a => (some a, ⟨pos.start + 1, pos.stop⟩)
  else some (none, pos)

theorem nextMap_measure {α : Type} {read : Nat → Option α} {pos pos' : IndexRange} {a : α}
    (h : nextMap read pos = some (some a, pos')) : pos'.stop - pos'.start < pos.stop - pos.start := by
  unfold nextMap at h
  split at h
  · obtain ⟨b, -, hb⟩ := Option.map_eq_some_iff.mp h
    cases hb
    show pos.stop - (pos.start + 1) < pos.stop - pos.start
    omega
  · cases h

set_option linter.unusedVariables false in
/-- `Iterator::collect`: `next` until it yields nothing, `none` where it panics. -/
def collectMap {α : Type} (read : Nat → Option α) (pos : IndexRange) : Option (List α) :=
  match h : nextMap read pos with
  | none => none
  | some (none, _) => some []
  | some (some a, pos') => (collectMap read pos').map (a :: ·)
termination_by pos.stop - pos.start
decreasing_by exact nextMap_measure h

/-- `collect` reads every index of the range in turn; the induction is on the
number of indices left. -/
theorem collectMap_eq {α : Type} (read : Nat → Option α) :
    ∀ (n : Nat) (pos : IndexRange), pos.stop - pos.start = n →
      collectMap read pos = (List.range' pos.start n).mapM read
  | 0, pos, hn => by
    have hend : nextMap read pos = some (none, pos) := by
      rw [nextMap, if_neg (by omega)]
    rw [collectMap]
    split
    · rename_i h
      rw [hend] at h
      cases h
    · rfl
    · rename_i h
      rw [hend] at h
      cases h
  | n + 1, pos, hn => by
    rw [List.range'_succ, List.mapM_cons]
    cases hread : read pos.start with
    | none =>
      have hpanic : nextMap read pos = none := by
        rw [nextMap, if_pos (by omega), hread]
        rfl
      rw [collectMap]
      split
      · rfl
      · rename_i h
        rw [hpanic] at h
        cases h
      · rename_i h
        rw [hpanic] at h
        cases h
    | some a =>
      have hstep : nextMap read pos = some (some a, ⟨pos.start + 1, pos.stop⟩) := by
        rw [nextMap, if_pos (by omega), hread]
        rfl
      have ih := collectMap_eq read n ⟨pos.start + 1, pos.stop⟩ (by show pos.stop - (pos.start + 1) = n; omega)
      rw [collectMap]
      split
      · rename_i h
        rw [hstep] at h
        cases h
      · rename_i h
        rw [hstep] at h
        cases h
      · rename_i a' pos' h
        rw [hstep] at h
        cases h
        rw [ih]
        show _ = (List.mapM read (List.range' (pos.start + 1) n)).bind fun rest => some (a :: rest)
        cases List.mapM read (List.range' (pos.start + 1) n) <;> rfl

end IndexRange

/-- Reading each index of a range out of a list that holds it. -/
theorem mapM_range'_getElem? {β : Type} (l : List β) :
    ∀ (n start : Nat), start + n ≤ l.length →
      (List.range' start n).mapM (fun i => l[i]?) = some ((l.drop start).take n)
  | 0, _, _ => by rw [List.range'_zero, List.take_zero]; rfl
  | n + 1, start, h => by
    have hdrop : l.drop start = l[start] :: l.drop (start + 1) := List.drop_eq_getElem_cons (by omega)
    rw [List.range'_succ, List.mapM_cons, List.getElem?_eq_getElem (by omega),
      mapM_range'_getElem? l n (start + 1) (by omega), hdrop, List.take_succ_cons]
    rfl

/-- `NibbleIterator`: the nibbles of `nibble_path` at the indices of `pos`;
`start` is where it began. -/
structure NibbleIterator where
  nibblePath : NibblePath
  pos : IndexRange
  start : Nat

/-- `BitIterator`: the bits of `nibble_path` at the indices of `pos`. -/
structure BitIterator where
  nibblePath : NibblePath
  pos : IndexRange

namespace NibbleIterator

/-- `NibbleIterator::new`. -/
def new (nibblePath : NibblePath) (start stop : Nat) : NibbleIterator :=
  ⟨nibblePath, ⟨start, stop⟩, start⟩

/-- `Iterator::next`. -/
def next (it : NibbleIterator) : Option (Option Nibble × NibbleIterator) :=
  (it.pos.nextMap it.nibblePath.getNibble).map fun (nibble, pos) => (nibble, { it with pos })

/-- `Peekable::peek`. -/
def peek (it : NibbleIterator) : Option (Option Nibble) :=
  if it.pos.start < it.pos.stop then (it.nibblePath.getNibble it.pos.start).map some else some none

/-- `Iterator::collect`. -/
def collect (it : NibbleIterator) : Option (List Nibble) :=
  it.pos.collectMap it.nibblePath.getNibble

/-- `NibbleIterator::visited_nibbles`. -/
def visitedNibbles (it : NibbleIterator) : NibbleIterator :=
  new it.nibblePath it.start it.pos.start

/-- `NibbleIterator::remaining_nibbles`. -/
def remainingNibbles (it : NibbleIterator) : NibbleIterator :=
  new it.nibblePath it.pos.start it.pos.stop

/-- `NibbleIterator::bits`. -/
def bits (it : NibbleIterator) : BitIterator :=
  ⟨it.nibblePath, ⟨it.pos.start * 4, it.pos.stop * 4⟩⟩

/-- `NibbleIterator::get_nibble_path`: the visited nibbles and then the remaining
ones, collected by `FromIterator`. A panic while reading or pushing is `none`
whichever comes first. -/
def getNibblePath (it : NibbleIterator) : Option NibblePath := do
  let visited ← it.visitedNibbles.collect
  let remaining ← it.remainingNibbles.collect
  NibblePath.fromIter (visited ++ remaining)

/-- `NibbleIterator::num_nibbles`. -/
def numNibbles (it : NibbleIterator) : Nat := it.pos.stop - it.start

/-- `NibbleIterator::is_finished`. -/
def isFinished (it : NibbleIterator) : Option Bool := it.peek.map Option.isNone

end NibbleIterator

namespace BitIterator

/-- `Iterator::next`. -/
def next (it : BitIterator) : Option (Option Bool × BitIterator) :=
  (it.pos.nextMap it.nibblePath.getBit).map fun (bit, pos) => (bit, { it with pos })

/-- `Peekable::peek`. -/
def peek (it : BitIterator) : Option (Option Bool) :=
  if it.pos.start < it.pos.stop then (it.nibblePath.getBit it.pos.start).map some else some none

/-- `Iterator::collect`. -/
def collect (it : BitIterator) : Option (List Bool) :=
  it.pos.collectMap it.nibblePath.getBit

end BitIterator

namespace NibblePath

/-- `NibblePath::nibbles`. -/
def nibbles (p : NibblePath) : NibbleIterator := NibbleIterator.new p 0 p.numNibbles

/-- `NibblePath::bits`. -/
def bits (p : NibblePath) : BitIterator := ⟨p, ⟨0, p.numNibbles * 4⟩⟩

end NibblePath

/-- `Iterator + Peekable`: `next` takes the front item off and `peek` shows it
without moving, each `none` where reading it panics. `remaining` is how far the
iterator has to go, and a `next` after a `peek` that shows an item lowers it,
which is what makes `skip_common_prefix` stop. -/
class Peekable (ι : Type) (α : outParam Type) where
  next : ι → Option (Option α × ι)
  peek : ι → Option (Option α)
  remaining : ι → Nat
  remaining_next_lt : ∀ {it it' : ι} {a : α} {item : Option α},
    peek it = some (some a) → next it = some (item, it') → remaining it' < remaining it

section SkipCommonPrefix

variable {ι₁ ι₂ α : Type} [Peekable ι₁ α] [Peekable ι₂ α] [DecidableEq α]

set_option linter.unusedVariables false in
/-- The loop of `skip_common_prefix`: stop when either iterator is done or the
two next items differ, and otherwise count one and advance both. -/
def skipCommonPrefixLoop (x : ι₁) (y : ι₂) (count : Nat) : Option (Nat × ι₁ × ι₂) :=
  match hx : Peekable.peek x, Peekable.peek y with
  | some (some a), some (some b) =>
    if a = b then
      match hnx : Peekable.next x, Peekable.next y with
      | some (_, x'), some (_, y') => skipCommonPrefixLoop x' y' (count + 1)
      | _, _ => none
    else some (count, x, y)
  | some _, some _ => some (count, x, y)
  | _, _ => none
termination_by Peekable.remaining x
decreasing_by exact Peekable.remaining_next_lt hx hnx

/-- `skip_common_prefix`: the count and the two iterators as the loop leaves
them. -/
def skipCommonPrefix (x : ι₁) (y : ι₂) : Option (Nat × ι₁ × ι₂) :=
  skipCommonPrefixLoop x y 0

variable {x x' : ι₁} {y y' : ι₂} {count : Nat}

/-- Both iterators show the same item: the loop counts it and goes on from
where `next` leaves them. -/
theorem skipCommonPrefixLoop_of_match {a : α} {i₁ i₂ : Option α}
    (hx : Peekable.peek x = some (some a)) (hy : Peekable.peek y = some (some a))
    (hnx : Peekable.next x = some (i₁, x')) (hny : Peekable.next y = some (i₂, y')) :
    skipCommonPrefixLoop x y count = skipCommonPrefixLoop x' y' (count + 1) := by
  rw [skipCommonPrefixLoop]
  split
  · rename_i a₁ b₁ h₁ h₂
    rw [hx, Option.some_inj, Option.some_inj] at h₁
    rw [hy, Option.some_inj, Option.some_inj] at h₂
    subst h₁ h₂
    rw [if_pos rfl]
    split
    · rename_i h₃ h₄
      rw [hnx, Option.some_inj, Prod.mk.injEq] at h₃
      rw [hny, Option.some_inj, Prod.mk.injEq] at h₄
      rw [← h₃.2, ← h₄.2]
    · rename_i hnot
      exact (hnot _ _ _ _ hnx hny).elim
  -- the other two arms cannot be taken when both peeks show an item
  · rename_i hnot h₁ h₂
    rw [hx, Option.some_inj] at h₁
    rw [hy, Option.some_inj] at h₂
    exact (hnot a a h₁.symm h₂.symm).elim
  · rename_i hnot
    exact (hnot a a hx hy).elim

/-- One iterator is done or the two show different items: the loop stops
with the count it has. -/
theorem skipCommonPrefixLoop_of_stop {i₁ i₂ : Option α}
    (hx : Peekable.peek x = some i₁) (hy : Peekable.peek y = some i₂)
    (hstop : ∀ a, i₁ = some a → i₂ ≠ some a) :
    skipCommonPrefixLoop x y count = some (count, x, y) := by
  rw [skipCommonPrefixLoop]
  split
  · rename_i a b h₁ h₂
    rw [hx, Option.some_inj] at h₁
    rw [hy, Option.some_inj] at h₂
    rw [if_neg]
    rintro rfl
    exact hstop a h₁ h₂
  · rfl
  · rename_i hnot
    exact (hnot i₁ i₂ hx hy).elim

end SkipCommonPrefix

namespace NibbleIterator

/-- On a well-formed path an iterator over a range of it yields the nibbles of
that range. -/
theorem collect_eq {it : NibbleIterator} (hp : NibblePath.WellFormed it.nibblePath)
    (hstart : it.pos.start ≤ it.pos.stop) (hstop : it.pos.stop ≤ it.nibblePath.numNibbles) :
    it.collect = some (((NibblePath.toNibbles it.nibblePath).drop it.pos.start).take (it.pos.stop - it.pos.start)) := by
  rw [collect, IndexRange.collectMap_eq _ _ it.pos rfl, funext (NibblePath.getNibble_eq hp)]
  exact mapM_range'_getElem? _ _ _ (by rw [NibblePath.length_toNibbles]; omega)

/-- A `next` after a `peek` that shows a nibble moves the range on by one. -/
theorem remaining_next_lt {it it' : NibbleIterator} {a : Nibble} {item : Option Nibble}
    (hpeek : it.peek = some (some a)) (hnext : it.next = some (item, it')) :
    it'.pos.stop - it'.pos.start < it.pos.stop - it.pos.start := by
  have hlt : it.pos.start < it.pos.stop := by
    rw [peek] at hpeek
    split at hpeek
    · assumption
    · cases hpeek
  rw [next, IndexRange.nextMap, if_pos hlt] at hnext
  obtain ⟨⟨nibble, pos⟩, hpos, heq⟩ := Option.map_eq_some_iff.mp hnext
  obtain ⟨b, -, hb⟩ := Option.map_eq_some_iff.mp hpos
  cases hb
  cases heq
  show it.pos.stop - (it.pos.start + 1) < it.pos.stop - it.pos.start
  omega

/-- The iterator stays within its path: the path is well formed and the range
lies in it. -/
structure InBounds (it : NibbleIterator) : Prop where
  wellFormed : NibblePath.WellFormed it.nibblePath
  start_le_stop : it.pos.start ≤ it.pos.stop
  stop_le : it.pos.stop ≤ it.nibblePath.numNibbles

/-- The nibbles the iterator has still to yield. -/
def remainingList (it : NibbleIterator) : List Nibble :=
  ((NibblePath.toNibbles it.nibblePath).drop it.pos.start).take (it.pos.stop - it.pos.start)

/-- The iterator moved `k` nibbles on. -/
def advance (it : NibbleIterator) (k : Nat) : NibbleIterator :=
  { it with pos := ⟨it.pos.start + k, it.pos.stop⟩ }

@[simp] theorem advance_zero (it : NibbleIterator) : it.advance 0 = it := rfl

theorem advance_advance (it : NibbleIterator) (j k : Nat) :
    (it.advance j).advance k = it.advance (j + k) := by
  simp only [advance, Nat.add_assoc]

theorem remainingList_advance (it : NibbleIterator) (k : Nat) :
    (it.advance k).remainingList = it.remainingList.drop k := by
  rw [remainingList, remainingList, List.drop_take, List.drop_drop, Nat.sub_sub]
  rfl

section InBounds

variable {it : NibbleIterator} (h : it.InBounds)
include h

theorem length_remainingList : it.remainingList.length = it.pos.stop - it.pos.start := by
  have := h.stop_le
  rw [remainingList, List.length_take, List.length_drop, NibblePath.length_toNibbles]
  omega

theorem InBounds.advance {k : Nat} (hk : it.pos.start + k ≤ it.pos.stop) : (it.advance k).InBounds :=
  ⟨h.wellFormed, hk, h.stop_le⟩

theorem lt_of_remainingList_eq_cons {a : Nibble} {l : List Nibble} (hl : it.remainingList = a :: l) :
    it.pos.start < it.pos.stop := by
  have := length_remainingList h
  rw [hl, List.length_cons] at this
  omega

/-- `peek` shows the first remaining nibble. -/
theorem peek_eq : it.peek = some it.remainingList.head? := by
  have := h.stop_le
  rw [peek, remainingList, List.head?_take, List.head?_drop]
  split
  · rw [if_neg (by omega), NibblePath.getNibble_eq h.wellFormed,
      List.getElem?_eq_getElem (by rw [NibblePath.length_toNibbles]; omega)]
    rfl
  · rw [if_pos (by omega)]

/-- `next` takes the first remaining nibble off. -/
theorem next_of_remainingList_eq_cons {a : Nibble} {l : List Nibble} (hl : it.remainingList = a :: l) :
    it.next = some (some a, it.advance 1) := by
  have hlt := lt_of_remainingList_eq_cons h hl
  have hget : it.nibblePath.getNibble it.pos.start = some a := by
    have hhead := congrArg List.head? hl
    rw [remainingList, List.head?_take, if_neg (by omega), List.head?_drop, List.head?_cons] at hhead
    rw [NibblePath.getNibble_eq h.wellFormed, hhead]
  rw [next, IndexRange.nextMap, if_pos hlt, hget]
  rfl

/-- `get_nibble_path` cuts out, as a new path, the nibbles from where the
iterator began to the end of its range. -/
theorem getNibblePath_eq (hstart : it.start ≤ it.pos.start) :
    it.getNibblePath = some (NibblePath.ofNibbles
      (((NibblePath.toNibbles it.nibblePath).drop it.start).take (it.pos.stop - it.start))) := by
  have hle := h.start_le_stop
  -- the visited nibbles and the remaining ones make up the whole range
  have hsplit : ((NibblePath.toNibbles it.nibblePath).drop it.start).take (it.pos.stop - it.start) =
      ((NibblePath.toNibbles it.nibblePath).drop it.start).take (it.pos.start - it.start) ++ it.remainingList := by
    rw [remainingList, show it.pos.stop - it.start = (it.pos.start - it.start) + (it.pos.stop - it.pos.start) by omega,
      List.take_add, List.drop_drop, Nat.add_sub_cancel' hstart]
  have hlen : (((NibblePath.toNibbles it.nibblePath).drop it.start).take (it.pos.stop - it.start)).length ≤
      rootNibbleHeight := by
    have := h.wellFormed.numNibbles_le
    have := h.stop_le
    rw [List.length_take]
    omega
  rw [getNibblePath, @collect_eq it.visitedNibbles h.wellFormed hstart (hle.trans h.stop_le),
    @collect_eq it.remainingNibbles h.wellFormed hle h.stop_le]
  show NibblePath.fromIter
    (((NibblePath.toNibbles it.nibblePath).drop it.start).take (it.pos.start - it.start) ++ it.remainingList) = _
  rw [← hsplit, NibblePath.fromIter_eq, if_pos hlen]

end InBounds

end NibbleIterator

/-- `NibbleIterator` as the `Peekable` iterator `skip_common_prefix` takes. -/
instance instPeekableNibbleIterator : Peekable NibbleIterator Nibble where
  next := NibbleIterator.next
  peek := NibbleIterator.peek
  remaining it := it.pos.stop - it.pos.start
  remaining_next_lt := NibbleIterator.remaining_next_lt

/-- How many items two lists agree on from the front. -/
def commonPrefixLength {α : Type} [DecidableEq α] : List α → List α → Nat
  | a :: l₁, b :: l₂ => if a = b then commonPrefixLength l₁ l₂ + 1 else 0
  | _, _ => 0

section CommonPrefixLength

variable {α : Type} [DecidableEq α]

/-- The two lists agree on their first `commonPrefixLength` items. -/
theorem take_commonPrefixLength :
    ∀ l₁ l₂ : List α, l₁.take (commonPrefixLength l₁ l₂) = l₂.take (commonPrefixLength l₁ l₂)
  | a :: l₁, b :: l₂ => by
    by_cases hab : a = b
    · subst hab
      rw [commonPrefixLength, if_pos rfl, List.take_succ_cons, List.take_succ_cons,
        take_commonPrefixLength l₁ l₂]
    · rw [commonPrefixLength, if_neg hab, List.take_zero, List.take_zero]
  | [], _ => rfl
  | _ :: _, [] => rfl

/-- After their common prefix the two lists do not go on with the same item. -/
theorem head?_drop_commonPrefixLength :
    ∀ (l₁ l₂ : List α) (a : α), (l₁.drop (commonPrefixLength l₁ l₂)).head? = some a →
      (l₂.drop (commonPrefixLength l₁ l₂)).head? ≠ some a
  | a :: l₁, b :: l₂, c => by
    by_cases hab : a = b
    · subst hab
      rw [commonPrefixLength, if_pos rfl, List.drop_succ_cons, List.drop_succ_cons]
      exact head?_drop_commonPrefixLength l₁ l₂ c
    · rw [commonPrefixLength, if_neg hab, List.drop_zero, List.drop_zero, List.head?_cons, List.head?_cons]
      intro h₁ h₂
      exact hab ((Option.some_inj.mp h₁).trans (Option.some_inj.mp h₂).symm)
  | [], _, _ => by simp [commonPrefixLength]
  | _ :: _, [], _ => by simp [commonPrefixLength]

end CommonPrefixLength

namespace NibbleIterator

/-- The loop of `skip_common_prefix` on two iterators within their paths counts
the nibbles the two have left in common and moves both past them; the induction
is on the nibbles `x` has left. -/
theorem skipCommonPrefixLoop_eq :
    ∀ (n : Nat) {x y : NibbleIterator} (count : Nat), x.remainingList.length = n → x.InBounds → y.InBounds →
      skipCommonPrefixLoop x y count =
        some (count + commonPrefixLength x.remainingList y.remainingList,
          x.advance (commonPrefixLength x.remainingList y.remainingList),
          y.advance (commonPrefixLength x.remainingList y.remainingList))
  | 0, x, y, count, hn, hx, hy => by
    -- `x` has nothing left, so the loop stops at once
    have hnil : x.remainingList = [] := List.eq_nil_of_length_eq_zero hn
    rw [skipCommonPrefixLoop_of_stop (peek_eq hx) (peek_eq hy) (by simp [hnil]), hnil]
    rfl
  | n + 1, x, y, count, hn, hx, hy => by
    obtain ⟨a, l₁, hl₁⟩ := List.exists_cons_of_length_eq_add_one hn
    cases hl₂ : y.remainingList with
    | nil =>
      rw [skipCommonPrefixLoop_of_stop (peek_eq hx) (peek_eq hy) (by simp [hl₂]), hl₁]
      rfl
    | cons b l₂ =>
      by_cases hab : a = b
      · subst hab
        have hpx : x.peek = some (some a) := by rw [peek_eq hx, hl₁]; rfl
        have hpy : y.peek = some (some a) := by rw [peek_eq hy, hl₂]; rfl
        have hn' : (x.advance 1).remainingList.length = n := by
          rw [remainingList_advance, hl₁, List.drop_one, List.tail_cons]
          rw [hl₁, List.length_cons] at hn
          omega
        have hx' := hx.advance (k := 1) (lt_of_remainingList_eq_cons hx hl₁)
        have hy' := hy.advance (k := 1) (lt_of_remainingList_eq_cons hy hl₂)
        rw [skipCommonPrefixLoop_of_match hpx hpy (next_of_remainingList_eq_cons hx hl₁)
            (next_of_remainingList_eq_cons hy hl₂), skipCommonPrefixLoop_eq n (count + 1) hn' hx' hy',
          remainingList_advance, remainingList_advance, advance_advance, advance_advance, hl₁, hl₂,
          List.drop_one, List.drop_one, List.tail_cons, List.tail_cons, commonPrefixLength, if_pos rfl,
          Nat.add_comm 1, Nat.add_right_comm count 1, Nat.add_assoc]
      · have hstop : ∀ c, x.remainingList.head? = some c → y.remainingList.head? ≠ some c := by
          rw [hl₁, hl₂]
          intro c h₁ h₂
          exact hab ((Option.some_inj.mp h₁).trans (Option.some_inj.mp h₂).symm)
        rw [skipCommonPrefixLoop_of_stop (peek_eq hx) (peek_eq hy) hstop, hl₁, commonPrefixLength, if_neg hab]
        rfl

/-- `skip_common_prefix` on two iterators within their paths: the count is the
length of the longest common prefix of the nibbles the two have left, and both
iterators move past it. -/
theorem skipCommonPrefix_eq {x y : NibbleIterator} (hx : x.InBounds) (hy : y.InBounds) :
    ∃ k, skipCommonPrefix x y = some (k, x.advance k, y.advance k) ∧
      x.remainingList.take k = y.remainingList.take k ∧
      ∀ a, (x.remainingList.drop k).head? = some a → (y.remainingList.drop k).head? ≠ some a := by
  refine ⟨commonPrefixLength x.remainingList y.remainingList, ?_, take_commonPrefixLength _ _,
    head?_drop_commonPrefixLength _ _⟩
  rw [skipCommonPrefix, skipCommonPrefixLoop_eq _ 0 rfl hx hy, Nat.zero_add]

end NibbleIterator

/-- `nibbles` yields the nibbles of a well-formed path. -/
theorem collect_nibbles {p : NibblePath} (hp : NibblePath.WellFormed p) :
    p.nibbles.collect = some (NibblePath.toNibbles p) := by
  rw [NibbleIterator.collect_eq hp (Nat.zero_le _) le_rfl]
  show some (((NibblePath.toNibbles p).drop 0).take (p.numNibbles - 0)) = _
  rw [List.drop_zero, Nat.sub_zero, ← NibblePath.length_toNibbles, List.take_length]

/-- `bits` yields the bits of the nibbles of a well-formed path. -/
theorem collect_bits {p : NibblePath} (hp : NibblePath.WellFormed p) :
    p.bits.collect = some (NibblePath.bitsOf (NibblePath.toNibbles p)) := by
  have hlen : (NibblePath.bitsOf (NibblePath.toNibbles p)).length = p.numNibbles * 4 := by
    rw [NibblePath.length_bitsOf, NibblePath.length_toNibbles, Nat.mul_comm]
  rw [BitIterator.collect, IndexRange.collectMap_eq _ _ _ rfl]
  show (List.range' 0 (p.numNibbles * 4 - 0)).mapM p.getBit = _
  rw [funext (NibblePath.getBit_eq hp), mapM_range'_getElem? _ _ _ (by omega), List.drop_zero, Nat.sub_zero,
    ← hlen, List.take_length]

/-- `NibblePath::new_even(key.to_vec())`, the path the tree walks for a key, is
well formed, and its nibbles are the 64 nibbles of the key. -/
theorem newEven_toVec (h : HashValue) :
    ∃ p, NibblePath.newEven h.toVec = some p ∧ NibblePath.WellFormed p ∧
      NibblePath.toNibbles p = h.nibblePath ∧ p.nibbles.collect = some h.nibblePath := by
  have hp : NibblePath.newEven h.toVec = some ⟨64, h.toVec⟩ := by
    rw [NibblePath.newEven, if_pos (by rw [HashValue.length_toVec]; decide), HashValue.length_toVec]
  have hwf := NibblePath.wellFormed_of_newEven hp
  have hnibbles : NibblePath.toNibbles ⟨64, h.toVec⟩ = h.nibblePath := by
    rw [NibblePath.toNibbles, AptosCore.NibblePath.ofBytes, HashValue.nibblePath]
    exact List.map_congr_left fun i hi => HashValue.getNibble_toVec h (List.mem_range.mp hi)
  exact ⟨_, hp, hwf, hnibbles, hnibbles ▸ collect_nibbles hwf⟩

/-- The representation of `NibblePath`: every path its operations build keeps
the invariant, and on a path that keeps it the operations, equality and the
derived order are those of its list of nibbles. -/
theorem nibblePath_representation :
    (∀ p : NibblePath, NibblePath.Produced p → NibblePath.WellFormed p) ∧
    ∀ p : NibblePath, NibblePath.WellFormed p →
      (∀ nibble, (p.push nibble).map NibblePath.toNibbles =
        if (NibblePath.toNibbles p).length < rootNibbleHeight then some (NibblePath.toNibbles p ++ [nibble])
        else none) ∧
      p.pop.map (fun r => (NibblePath.toNibbles r.1, r.2)) =
        some ((NibblePath.toNibbles p).dropLast, (NibblePath.toNibbles p).getLast?) ∧
      (∀ len, (p.truncate len).map NibblePath.toNibbles =
        if len ≤ (NibblePath.toNibbles p).length then some ((NibblePath.toNibbles p).take len) else none) ∧
      p.last = some (NibblePath.toNibbles p).getLast? ∧
      (∀ i, p.getNibble i = (NibblePath.toNibbles p)[i]?) ∧
      (∀ i, p.getBit i = (NibblePath.bitsOf (NibblePath.toNibbles p))[i]?) ∧
      p.nibbles.collect = some (NibblePath.toNibbles p) ∧
      p.bits.collect = some (NibblePath.bitsOf (NibblePath.toNibbles p)) ∧
      ∀ q : NibblePath, NibblePath.WellFormed q →
        (p = q ↔ NibblePath.toNibbles p = NibblePath.toNibbles q) ∧
        (p < q ↔ (NibblePath.toNibbles p).length < (NibblePath.toNibbles q).length ∨
          (NibblePath.toNibbles p).length = (NibblePath.toNibbles q).length ∧
            NibblePath.toNibbles p < NibblePath.toNibbles q) :=
  ⟨fun _ hp => NibblePath.wellFormed_of_produced hp, fun _ hp =>
    ⟨NibblePath.toNibbles_push hp, NibblePath.toNibbles_pop hp, NibblePath.toNibbles_truncate hp,
      NibblePath.last_eq hp, NibblePath.getNibble_eq hp, NibblePath.getBit_eq hp, collect_nibbles hp,
      collect_bits hp, fun _ hq => ⟨NibblePath.eq_iff_toNibbles hp hq, NibblePath.lt_iff_toNibbles hp hq⟩⟩⟩

/-- The path `12a`: pushing `b` onto it gives `12ab`. -/
theorem nibblePath_representation_12a :
    NibblePath.WellFormed ⟨3, [0x12, 0xa0]⟩ ∧
      (NibblePath.push ⟨3, [0x12, 0xa0]⟩ 0xb).map NibblePath.toNibbles = some [1, 2, 0xa, 0xb] :=
  have hp : NibblePath.WellFormed ⟨3, [0x12, 0xa0]⟩ := by decide
  ⟨hp, ((nibblePath_representation.2 _ hp).1 0xb).trans (by decide)⟩

end AptosCore.Types
