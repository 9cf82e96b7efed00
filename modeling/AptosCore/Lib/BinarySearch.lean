import Mathlib.Order.Basic

/-!
# Binary search by a comparator

`slice::binary_search_by` of the Rust core library (1.61): the half-open range
`[left, right)` is halved at `left + size / 2`, where `size = right - left`,
until the comparator says `Equal` there or the range is empty; `Err(left)` is
then the insertion point. A comparator that says `Less` on a prefix of the list
and `Greater` on the rest ends the search at `Err` of the prefix's length
(`binarySearchBy_eq_error`): below `left` it said `Less` and from `right` on
`Greater`, and the range shrinks around the boundary.

Two searches for the boundary of a predicate that holds from some index of the
list on (`UpwardClosed`): the first index where it holds, halving `[i, j)` at
`i + (j - i) / 2` (`partitionPointLoop`, which is `List.findIdx`), and the last
index where it fails, halving `[i, j]` at `j - (j - i) / 2` (`lastFalseLoop`).
Each keeps the predicate false below its range and true above it.
-/

namespace AptosCore.BinarySearch

variable {α : Type*}

/-- The loop of `binary_search_by` over `[left, right)`. -/
def searchLoop (f : α → Ordering) (xs : List α) (left right : Nat) (hright : right ≤ xs.length) :
    Except Nat Nat :=
  if hlt : left < right then
    match f (xs.get ⟨left + (right - left) / 2, by omega⟩) with
    | .lt => searchLoop f xs (left + (right - left) / 2 + 1) right hright
    | .gt => searchLoop f xs left (left + (right - left) / 2) (by omega)
    | .eq => .ok (left + (right - left) / 2)
  else .error left
termination_by right - left

/-- `binary_search_by`: `Ok` of a position where `f` says `Equal`, or `Err` of the
insertion point. -/
def binarySearchBy (f : α → Ordering) (xs : List α) : Except Nat Nat :=
  searchLoop f xs 0 xs.length (Nat.le_refl _)

section Partitioned

variable {f : α → Ordering} {xs : List α} {p : Nat}

/-- The loop ends at the boundary `p` when it starts around it. -/
theorem searchLoop_eq_error
    (hless : ∀ i (h : i < xs.length), i < p → f (xs.get ⟨i, h⟩) = .lt)
    (hgreater : ∀ i (h : i < xs.length), p ≤ i → f (xs.get ⟨i, h⟩) = .gt) :
    ∀ n left right (hright : right ≤ xs.length), right - left ≤ n → left ≤ p → p ≤ right →
      searchLoop f xs left right hright = .error p := by
  intro n
  induction n with
  | zero =>
    intro left right hright hn hl hr
    have hp : left = p := by omega
    rw [searchLoop, dif_neg (by omega), hp]
  | succ n ih =>
    intro left right hright hn hl hr
    rw [searchLoop]
    split_ifs with hlt
    · have hmid : left + (right - left) / 2 < xs.length := by omega
      by_cases hm : left + (right - left) / 2 < p
      · -- `Less` at the midpoint: the boundary is above it
        rw [hless _ hmid hm]
        exact ih _ _ hright (by omega) (by omega) hr
      · -- `Greater` at the midpoint: the boundary is at or below it
        rw [hgreater _ hmid (by omega)]
        exact ih _ _ _ (by omega) hl (by omega)
    · have hp : left = p := by omega
      rw [hp]

/-- A comparator that says `Less` exactly on the first `p` elements makes the search
return `Err p`. -/
theorem binarySearchBy_eq_error (hp : p ≤ xs.length)
    (hless : ∀ i (h : i < xs.length), i < p → f (xs.get ⟨i, h⟩) = .lt)
    (hgreater : ∀ i (h : i < xs.length), p ≤ i → f (xs.get ⟨i, h⟩) = .gt) :
    binarySearchBy f xs = .error p :=
  searchLoop_eq_error hless hgreater _ 0 xs.length (Nat.le_refl _) (Nat.le_refl _) (Nat.zero_le p) hp

end Partitioned

/-! ## The boundary of a predicate -/

/-- The search for the first index of `[i, j)` where `p` holds: halve at
`i + (j - i) / 2` and keep the lower half when `p` holds at the middle. -/
def partitionPointLoop (p : α → Bool) (xs : List α) (i j : Nat) (hj : j ≤ xs.length) : Nat :=
  if hlt : i < j then
    if p (xs.get ⟨i + (j - i) / 2, by omega⟩) then partitionPointLoop p xs i (i + (j - i) / 2) (by omega)
    else partitionPointLoop p xs (i + (j - i) / 2 + 1) j hj
  else i
termination_by j - i

/-- The search for the last index of `[i, j]` where `p` fails: halve at
`j - (j - i) / 2` and keep what is below the middle when `p` holds there. -/
def lastFalseLoop (p : α → Bool) (xs : List α) (i j : Nat) (hj : j < xs.length) : Nat :=
  if hlt : i < j then
    if p (xs.get ⟨j - (j - i) / 2, by omega⟩) then lastFalseLoop p xs i (j - (j - i) / 2 - 1) (by omega)
    else lastFalseLoop p xs (j - (j - i) / 2) j hj
  else i
termination_by j - i

/-- Once `p` holds at an element of `xs`, it holds at every later one. -/
def UpwardClosed (p : α → Bool) (xs : List α) : Prop :=
  ∀ k k' (hk : k < xs.length) (hk' : k' < xs.length), k ≤ k' →
    p (xs.get ⟨k, hk⟩) = true → p (xs.get ⟨k', hk'⟩) = true

section Boundary

variable {p : α → Bool} {xs : List α}

/-- The first search keeps `p` false below its range and true from its end on. -/
theorem partitionPointLoop_spec (hmono : UpwardClosed p xs) :
    ∀ n i j (hj : j ≤ xs.length), j - i ≤ n → i ≤ j →
      (∀ k (hk : k < xs.length), k < i → p (xs.get ⟨k, hk⟩) = false) →
      (∀ k (hk : k < xs.length), j ≤ k → p (xs.get ⟨k, hk⟩) = true) →
      i ≤ partitionPointLoop p xs i j hj ∧ partitionPointLoop p xs i j hj ≤ j ∧
        (∀ k (hk : k < xs.length), k < partitionPointLoop p xs i j hj → p (xs.get ⟨k, hk⟩) = false) ∧
        (∀ k (hk : k < xs.length), partitionPointLoop p xs i j hj ≤ k → p (xs.get ⟨k, hk⟩) = true) := by
  intro n
  induction n with
  | zero =>
    intro i j hj hn hij hbelow habove
    rw [partitionPointLoop, dif_neg (by omega)]
    exact ⟨Nat.le_refl i, hij, hbelow, fun k hk hik => habove k hk (by omega)⟩
  | succ n ih =>
    intro i j hj hn hij hbelow habove
    rw [partitionPointLoop]
    split_ifs with hlt hmid
    · -- `p` holds at the middle, and so from there on
      have h := ih i (i + (j - i) / 2) (by omega) (by omega) (by omega) hbelow
        fun k hk hmk => hmono _ k _ hk hmk hmid
      exact ⟨h.1, by omega, h.2.2⟩
    · -- `p` fails at the middle, and so below it
      have hfalse : ∀ k (hk : k < xs.length), k < i + (j - i) / 2 + 1 → p (xs.get ⟨k, hk⟩) = false := by
        intro k hk hkm
        cases hpk : p (xs.get ⟨k, hk⟩)
        · rfl
        · exact absurd (hmono k _ hk _ (by omega) hpk) hmid
      have h := ih (i + (j - i) / 2 + 1) j hj (by omega) (by omega) hfalse habove
      exact ⟨by omega, h.2⟩
    · exact ⟨Nat.le_refl i, hij, hbelow, fun k hk hik => habove k hk (by omega)⟩

/-- Over the whole list the first search finds the first element where `p` holds,
the length when there is none. -/
theorem partitionPointLoop_eq_findIdx (hmono : UpwardClosed p xs) :
    partitionPointLoop p xs 0 xs.length (Nat.le_refl _) = xs.findIdx p := by
  obtain ⟨-, hle, hbelow, habove⟩ := partitionPointLoop_spec hmono _ 0 xs.length (Nat.le_refl _)
    (Nat.le_refl _) (Nat.zero_le _) (fun _ _ hk => absurd hk (Nat.not_lt_zero _))
    (fun _ hk hle => absurd hk (by omega))
  generalize partitionPointLoop p xs 0 xs.length (Nat.le_refl _) = r at hle hbelow habove
  rcases Nat.lt_or_ge r xs.length with hr | hr
  · exact ((List.findIdx_eq hr).mpr ⟨habove r hr (Nat.le_refl r), fun k hk => hbelow k (by omega) hk⟩).symm
  · have hr' : r = xs.length := by omega
    subst hr'
    refine (List.findIdx_eq_length.mpr fun x hx => ?_).symm
    obtain ⟨k, hk, rfl⟩ := List.getElem_of_mem hx
    exact hbelow k hk hk

/-- The second search ends within its range. -/
theorem lastFalseLoop_mem :
    ∀ n i j (hj : j < xs.length), j - i ≤ n → i ≤ j →
      i ≤ lastFalseLoop p xs i j hj ∧ lastFalseLoop p xs i j hj ≤ j := by
  intro n
  induction n with
  | zero =>
    intro i j hj hn hij
    rw [lastFalseLoop, dif_neg (by omega)]
    exact ⟨Nat.le_refl i, hij⟩
  | succ n ih =>
    intro i j hj hn hij
    rw [lastFalseLoop]
    split_ifs with hlt hmid
    · have h := ih i (j - (j - i) / 2 - 1) (by omega) (by omega) (by omega)
      exact ⟨h.1, by omega⟩
    · have h := ih (j - (j - i) / 2) j hj (by omega) (by omega)
      exact ⟨by omega, h.2⟩
    · exact ⟨Nat.le_refl i, hij⟩

/-- The second search, started where `p` fails, keeps `p` failing at its start and
holding after its end. -/
theorem lastFalseLoop_spec (hmono : UpwardClosed p xs) :
    ∀ n i j (hj : j < xs.length), j - i ≤ n → (hij : i ≤ j) →
      p (xs.get ⟨i, by omega⟩) = false →
      (∀ k (hk : k < xs.length), j < k → p (xs.get ⟨k, hk⟩) = true) →
      i ≤ lastFalseLoop p xs i j hj ∧ lastFalseLoop p xs i j hj ≤ j ∧
        (∀ k (hk : k < xs.length), k ≤ lastFalseLoop p xs i j hj → p (xs.get ⟨k, hk⟩) = false) ∧
        (∀ k (hk : k < xs.length), lastFalseLoop p xs i j hj < k → p (xs.get ⟨k, hk⟩) = true) := by
  -- `p` fails at or below an index where it fails
  have hdown : ∀ r (hr : r < xs.length), p (xs.get ⟨r, hr⟩) = false →
      ∀ k (hk : k < xs.length), k ≤ r → p (xs.get ⟨k, hk⟩) = false := by
    intro r hr hpr k hk hkr
    cases hpk : p (xs.get ⟨k, hk⟩)
    · rfl
    · rw [hmono k r hk hr hkr hpk] at hpr
      cases hpr
  intro n
  induction n with
  | zero =>
    intro i j hj hn hij hi habove
    rw [lastFalseLoop, dif_neg (by omega)]
    exact ⟨Nat.le_refl i, hij, hdown i _ hi, fun k hk hik => habove k hk (by omega)⟩
  | succ n ih =>
    intro i j hj hn hij hi habove
    rw [lastFalseLoop]
    split_ifs with hlt hmid
    · -- `p` holds at the middle, and so from there on
      have h := ih i (j - (j - i) / 2 - 1) (by omega) (by omega) (by omega) hi
        fun k hk hmk => if hkj : j < k then habove k hk hkj else hmono _ k _ hk (by omega) hmid
      exact ⟨h.1, by omega, h.2.2⟩
    · -- `p` fails at the middle
      have h := ih (j - (j - i) / 2) j hj (by omega) (by omega) (Bool.not_eq_true _ ▸ hmid) habove
      exact ⟨by omega, h.2⟩
    · exact ⟨Nat.le_refl i, hij, hdown i _ hi, fun k hk hik => habove k hk (by omega)⟩

end Boundary

end AptosCore.BinarySearch
