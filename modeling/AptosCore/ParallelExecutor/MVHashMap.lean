import Mathlib.Data.Nat.Basic
import AptosCore.Lib.ExceptCheck
import AptosCore.Lib.SortedMap

/-!
# The multi-version map of parallel execution

`aptos-move/mvhashmap/src/lib.rs`. For each access path the map keeps the writes
of the block's transactions by transaction index, in a `BTreeMap`, each cell
with the incarnation that wrote it and a flag that marks it an estimate. `write`
replaces the cell of its transaction and asserts that the cell it replaces had a
lower incarnation.

`ParallelTransactionExecutor::execute` (`parallel-executor/src/executor.rs`)
writes every entry of an output's write set at the version it executes
(`apply_writes`). Nothing checks that a write set names each key once
(`WriteSetMut::freeze` does not), and a write set that names a key twice makes
the second write meet the cell of the first, of the same incarnation: the assert
fails (`applyWrites_repeated_key`).
-/

namespace AptosCore.ParallelExecutor

/-- `FLAG_DONE`. -/
def flagDone : Nat := 0

/-- `FLAG_ESTIMATE`. -/
def flagEstimate : Nat := 1

/-- `WriteCell`. -/
structure WriteCell (V : Type) where
  flag : Nat
  incarnation : Nat
  data : V

/-- `MVHashMap`: for each access path written so far, its cells by transaction index. -/
structure MVHashMap (K V : Type) where
  data : K → Option (List (Nat × WriteCell V))

namespace MVHashMap

variable {K V : Type} [DecidableEq K]

/-- `MVHashMap::new`. -/
def new : MVHashMap K V := ⟨fun _ => none⟩

/-- The cells of a key; a key never written has none. -/
def cellsOf (m : MVHashMap K V) (key : K) : List (Nat × WriteCell V) := (m.data key).getD []

/-- The message of the assert in `write`. -/
def writeAssertion : String :=
  "assertion failed: prev_cell.map(|cell| cell.incarnation < incarnation).unwrap_or(true)"

/-- `MVHashMap::write` at the version `(txn_idx, incarnation)`. -/
def write (key : K) (version : Nat × Nat) (data : V) (m : MVHashMap K V) :
    Except String (MVHashMap K V) :=
  let prevCell := (m.cellsOf key).lookup version.1
  let m' : MVHashMap K V :=
    ⟨Function.update m.data key
      (some (SortedMap.insert version.1 ⟨flagDone, version.2, data⟩ (m.cellsOf key)))⟩
  if (prevCell.map fun cell => decide (cell.incarnation < version.2)).getD true then .ok m'
  else .error writeAssertion

/-- `MVHashMap::delete`. -/
def delete (key : K) (txnIdx : Nat) (m : MVHashMap K V) : Except String (MVHashMap K V) :=
  match m.data key with
  | some map => .ok ⟨Function.update m.data key (some (SortedMap.erase txnIdx map))⟩
  | none => .error "Path must exist"

/-- `MVHashMap::mark_estimate`. -/
def markEstimate (key : K) (txnIdx : Nat) (m : MVHashMap K V) : Except String (MVHashMap K V) :=
  match m.data key with
  | none => .error "Path must exist"
  | some map =>
    match map.lookup txnIdx with
    | none => .error "Entry by txn must exist"
    | some cell =>
      .ok ⟨Function.update m.data key
        (some (SortedMap.insert txnIdx { cell with flag := flagEstimate } map))⟩

/-- `MVHashMap::read` by the transaction `txnIdx`: the cell of the highest transaction below it,
a dependency on that transaction when the cell is an estimate, or nothing. -/
def read (m : MVHashMap K V) (key : K) (txnIdx : Nat) : Except (Option Nat) ((Nat × Nat) × V) :=
  match ((m.cellsOf key).filter fun e => e.1 < txnIdx).getLast? with
  | some (idx, cell) =>
    if cell.flag = flagEstimate then .error (some idx) else .ok ((idx, cell.incarnation), cell.data)
  | none => .error none

/-- `apply_writes` in `ParallelTransactionExecutor::execute`: each write of an
output at the version executed, removing its key from the previous write set and
noting a write outside it. -/
def applyWrites (writeVersion : Nat × Nat) :
    List (K × V) → List K → Bool → MVHashMap K V → Except String (List K × Bool × MVHashMap K V)
  | [], prevWriteSet, writesOutside, m => .ok (prevWriteSet, writesOutside, m)
  | (k, v) :: writes, prevWriteSet, writesOutside, m => do
    let writesOutside := if k ∈ prevWriteSet then writesOutside else true
    let m ← m.write k writeVersion v
    applyWrites writeVersion writes (prevWriteSet.erase k) writesOutside m

/-- A write fails only on its assert. -/
theorem eq_writeAssertion_of_write {key : K} {version : Nat × Nat} {data : V} {m : MVHashMap K V}
    {e : String} (h : m.write key version data = .error e) : e = writeAssertion := by
  unfold write at h
  dsimp only at h
  split_ifs at h
  cases h
  rfl

/-- A write meeting a cell of its transaction with no lower incarnation fails. -/
theorem write_eq_error {key : K} {txnIdx incarnation : Nat} {data : V} {m : MVHashMap K V}
    {cell : WriteCell V} (hcell : (m.cellsOf key).lookup txnIdx = some cell)
    (hle : incarnation ≤ cell.incarnation) :
    m.write key (txnIdx, incarnation) data = .error writeAssertion := by
  unfold write
  dsimp only
  rw [if_neg]
  simp [hcell, hle]

/-- A write leaves the cells of every other key. -/
theorem cellsOf_write_of_ne {key k : K} {version : Nat × Nat} {data : V} {m m' : MVHashMap K V}
    (h : m.write key version data = .ok m') (hk : k ≠ key) : m'.cellsOf k = m.cellsOf k := by
  unfold write at h
  dsimp only at h
  split_ifs at h
  · cases h
    simp [cellsOf, Function.update_of_ne hk]

/-- A write leaves its cell, with its incarnation. -/
theorem lookup_write {key : K} {txnIdx incarnation : Nat} {data : V} {m m' : MVHashMap K V}
    (h : m.write key (txnIdx, incarnation) data = .ok m') :
    (m'.cellsOf key).lookup txnIdx = some ⟨flagDone, incarnation, data⟩ := by
  unfold write at h
  dsimp only at h
  split_ifs at h
  · cases h
    simp [cellsOf, SortedMap.lookup_insert]

/-- The writes of an output fail only on the assert of a write. -/
theorem eq_writeAssertion_of_applyWrites {writeVersion : Nat × Nat} {e : String} :
    ∀ {writes : List (K × V)} {prevWriteSet : List K} {writesOutside : Bool} {m : MVHashMap K V},
      applyWrites writeVersion writes prevWriteSet writesOutside m = .error e → e = writeAssertion
  | [], _, _, _, h => by cases h
  | (k, v) :: writes, prevWriteSet, writesOutside, m, h => by
    rw [applyWrites] at h
    cases hw : m.write k writeVersion v with
    | error e' =>
      rw [hw] at h
      cases h
      exact eq_writeAssertion_of_write hw
    | ok m' =>
      rw [hw] at h
      exact eq_writeAssertion_of_applyWrites h

/-- Writes that come to a key whose cell already has the incarnation written fail. -/
theorem applyWrites_of_cell {txnIdx incarnation : Nat} {key : K} :
    ∀ {writes : List (K × V)} {prevWriteSet : List K} {writesOutside : Bool} {m : MVHashMap K V},
      (∃ cell, (m.cellsOf key).lookup txnIdx = some cell ∧ incarnation ≤ cell.incarnation) →
      key ∈ writes.map Prod.fst →
      applyWrites (txnIdx, incarnation) writes prevWriteSet writesOutside m = .error writeAssertion
  | [], _, _, _, _, hmem => absurd hmem List.not_mem_nil
  | (k, v) :: writes, prevWriteSet, writesOutside, m, ⟨cell, hcell, hle⟩, hmem => by
    rw [applyWrites]
    cases hw : m.write k (txnIdx, incarnation) v with
    | error e =>
      rw [eq_writeAssertion_of_write hw]
      rfl
    | ok m' =>
      -- the key is not this write's: a write to it would have failed here
      have hk : key ≠ k := by
        rintro rfl
        rw [write_eq_error hcell hle] at hw
        cases hw
      have hrest : key ∈ writes.map Prod.fst := (List.mem_cons.mp hmem).resolve_left hk
      exact applyWrites_of_cell ⟨cell, (cellsOf_write_of_ne hw hk).symm ▸ hcell, hle⟩ hrest

/-- An output whose writes name a key twice fails on the assert of `write`, from
every state of the map. -/
theorem applyWrites_repeated_key (writeVersion : Nat × Nat) :
    ∀ (writes : List (K × V)), ¬(writes.map Prod.fst).Nodup →
      ∀ (prevWriteSet : List K) (writesOutside : Bool) (m : MVHashMap K V),
        applyWrites writeVersion writes prevWriteSet writesOutside m = .error writeAssertion
  | [], hdup, _, _, _ => absurd List.nodup_nil hdup
  | (k, v) :: writes, hdup, prevWriteSet, writesOutside, m => by
    rw [applyWrites]
    cases hw : m.write k writeVersion v with
    | error e =>
      rw [eq_writeAssertion_of_write hw]
      rfl
    | ok m' =>
      simp only [ExceptCheck.ok_bind]
      by_cases hk : k ∈ writes.map Prod.fst
      · -- the later write of `k` meets the cell this one left
        exact applyWrites_of_cell ⟨_, lookup_write hw, Nat.le_refl _⟩ hk
      · have hrest : ¬(writes.map Prod.fst).Nodup := fun hnd =>
          hdup (List.nodup_cons.mpr ⟨hk, hnd⟩)
        exact applyWrites_repeated_key writeVersion writes hrest _ _ m'

/-- Two writes of key 0 by transaction 0 at incarnation 0, into a new map. -/
theorem applyWrites_repeated_key_sample :
    ¬([(0, 1), (0, 2)].map Prod.fst : List Nat).Nodup ∧
      applyWrites (0, 0) [(0, 1), (0, 2)] [] false (new : MVHashMap Nat Nat) = .error writeAssertion :=
  ⟨by decide, applyWrites_repeated_key (0, 0) [(0, 1), (0, 2)] (by decide) [] false new⟩

end MVHashMap

end AptosCore.ParallelExecutor
