import Mathlib
import AptosCore.Jmt.Restore
import AptosCore.Lib.Outcome

/-!
# What a chunk leaves behind

The methods of the tree builder change the partial and frozen nodes only; a key
of a chunk becomes the previous leaf and is counted before anything is checked
(`addKey_spec`), and `add_chunk_impl` runs `verify` after all keys of the chunk
are in (`addChunkImpl_of_verify_error`). So a chunk that `verify` rejects leaves
its last key as the previous leaf, and a chunk whose keys go no further is
then skipped as received, with `Ok` (`addChunkImpl_of_skip`).

Neither a skipped chunk nor `finish_impl` is checked against the expected root:
a restore offered a chunk it already received, with the proof of a last chunk,
accepts it and then finishes with the tree of the keys received so far
(`duplicate_last_chunk_finishes_wrong_tree`).
-/

set_option mvcgen.warning false

namespace AptosCore.JellyfishMerkleRestore

open Std.Do

variable {κ α σ : Type}

/-- A method of the tree builder changes the partial and frozen nodes only. -/
theorem liftBuilder_frame {β : Type} (x : BuilderM κ α β) (st : JellyfishMerkleRestore κ α σ) :
    Outcome (fun _ st' => ∃ b, st' = { st with toTreeBuilder := b })
      (fun _ st' => ∃ b, st' = { st with toTreeBuilder := b }) (liftBuilder x st) := by
  apply outcome_of_wp
  mvcgen [liftBuilder]
  all_goals exact ⟨_, rfl⟩

variable (E : RestoreEnv κ α σ)

/-- A key that is added becomes the previous leaf and is counted. -/
theorem addKey_spec (key : κ) (valueHash : α) (st : JellyfishMerkleRestore κ α σ) :
    Outcome (fun _ st' => st'.version = st.version ∧ st'.numKeysReceived = st.numKeysReceived + 1 ∧
        st'.previousLeaf = some ⟨E.keyHash key, valueHash, (key, st.version)⟩)
      (fun _ _ => True) (addKey E key valueHash st) := by
  apply outcome_of_wp
  mvcgen [addKey, liftBuilder]

variable {E}

/-- The keys of a chunk that are all added leave the last of them as the previous
leaf, each counted. -/
theorem addKeys_eq_ok : ∀ {chunk : List (κ × α)} {st st' : JellyfishMerkleRestore κ α σ},
    addKeys E chunk st = .ok () st' →
    st'.version = st.version ∧ st'.numKeysReceived = st.numKeysReceived + chunk.length ∧
      ∀ key valueHash, chunk.getLast? = some (key, valueHash) →
        st'.previousLeaf = some ⟨E.keyHash key, valueHash, (key, st.version)⟩
  | [], st, st', h => by
    cases h
    exact ⟨rfl, rfl, fun _ _ hlast => by cases hlast⟩
  | (key, valueHash) :: rest, st, st', h => by
    -- the first key, then the rest of the chunk from the state it left
    obtain ⟨_, st₁, h₁, h₂⟩ := bind_eq_ok h
    obtain ⟨hv₁, hn₁, hp₁⟩ := (addKey_spec E key valueHash st).of_ok h₁
    obtain ⟨hv₂, hn₂, hp₂⟩ := addKeys_eq_ok h₂
    refine ⟨hv₂.trans hv₁, ?_, ?_⟩
    · rw [hn₂, hn₁, List.length_cons]
      omega
    · intro key' valueHash' hlast
      cases rest with
      | nil =>
        cases h₂
        rw [List.getLast?_singleton, Option.some.injEq, Prod.mk.injEq] at hlast
        obtain ⟨rfl, rfl⟩ := hlast
        exact hp₁
      | cons item rest =>
        rw [List.getLast?_cons_cons] at hlast
        rw [hp₂ key' valueHash' hlast, hv₁]

/-- A chunk whose keys are all at or below the previous leaf is skipped whole. -/
theorem skipReceived_of_le {prevLeaf : LeafNode κ α} {chunk : List (κ × α)}
    (h : ∀ item ∈ chunk, E.keyHash item.1 ≤ prevLeaf.accountKey) :
    skipReceived E (some prevLeaf) chunk = none := by
  simp only [skipReceived, Option.map_eq_none_iff, List.findIdx?_eq_none_iff, decide_eq_false_iff_not,
    not_lt]
  exact h

variable [DecidableEq α]

/-- A chunk skipped whole is accepted, with nothing checked and nothing changed. -/
theorem addChunkImpl_of_skip {chunk : List (κ × α)} {proof : SparseMerkleRangeProof α}
    {st : JellyfishMerkleRestore κ α σ} (hskip : skipReceived E st.previousLeaf chunk = none) :
    addChunkImpl E chunk proof st = .ok () st := by
  unfold addChunkImpl
  rw [bind_of_ok (rfl : (get : RestoreM κ α σ _) st = .ok st st)]
  simp only [hskip]
  rfl

/-- `verify` runs after every key of the chunk is in: its error returns the state
they left. -/
theorem addChunkImpl_of_verify_error {chunk keys : List (κ × α)} {proof : SparseMerkleRangeProof α}
    {st st₁ : JellyfishMerkleRestore κ α σ} {e : RestoreError α}
    (hskip : skipReceived E st.previousLeaf chunk = some keys) (hne : keys ≠ [])
    (hadd : addKeys E keys st = .ok () st₁) (hverify : verify E.hasher st₁ proof = .error e) :
    addChunkImpl E chunk proof st = .error e st₁ := by
  have hkeys : keys.isEmpty = false := List.isEmpty_eq_false_iff.mpr hne
  have hlift : (liftExcept (verify E.hasher st₁ proof) : RestoreM κ α σ Unit) st₁ = .error e st₁ := by
    rw [hverify]
    rfl
  unfold addChunkImpl
  rw [bind_of_ok (rfl : (get : RestoreM κ α σ _) st = .ok st st)]
  simp only [hskip, hkeys, Bool.false_eq_true, ite_false]
  rw [bind_of_ok hadd, bind_of_ok (rfl : (get : RestoreM κ α σ _) st₁ = .ok st₁ st₁), bind_of_error hlift]

/-- A chunk that `verify` rejects stays received: the restore it returns has the
chunk's last key as the previous leaf and its keys counted, and from it any chunk
of keys up to that last one is skipped and accepted. -/
theorem verify_error_keeps_chunk {chunk keys : List (κ × α)} {proof : SparseMerkleRangeProof α}
    {st st₁ : JellyfishMerkleRestore κ α σ} {e : RestoreError α}
    (hskip : skipReceived E st.previousLeaf chunk = some keys)
    (hadd : addKeys E keys st = .ok () st₁) (hverify : verify E.hasher st₁ proof = .error e)
    {key : κ} {valueHash : α} (hlast : keys.getLast? = some (key, valueHash)) :
    addChunkImpl E chunk proof st = .error e st₁ ∧
      st₁.previousLeaf = some ⟨E.keyHash key, valueHash, (key, st.version)⟩ ∧
      st₁.numKeysReceived = st.numKeysReceived + keys.length ∧
      ∀ (chunk' : List (κ × α)) (proof' : SparseMerkleRangeProof α),
        (∀ item ∈ chunk', E.keyHash item.1 ≤ E.keyHash key) → addChunkImpl E chunk' proof' st₁ = .ok () st₁ := by
  have hne : keys ≠ [] := by
    rintro rfl
    cases hlast
  obtain ⟨_, hcount, hprev⟩ := addKeys_eq_ok hadd
  have hprev := hprev key valueHash hlast
  refine ⟨addChunkImpl_of_verify_error hskip hne hadd hverify, hprev, hcount, ?_⟩
  intro chunk' proof' hle
  apply addChunkImpl_of_skip
  rw [hprev]
  exact skipReceived_of_le hle

/-! ## A rejected chunk offered again -/

/-- Hashes over numbers that tell the value hashes of a leaf apart. -/
def sampleHasher : SmtHasher Nat :=
  ⟨fun left right => 2 * left + right + 3, fun key valueHash => key.val * 7 + valueHash + 1, 0⟩

/-- Keys that are their own hashes, and a tree writer that keeps every node written. -/
def sampleEnv : RestoreEnv Nat Nat (List (NodeKey × Node Nat Nat)) :=
  ⟨sampleHasher, fun key => Fin.ofNat _ key,
    fun batch written => .ok (written ++ batch.entries.map fun node => (node.1, node.2))⟩

/-- A fresh restore, at version 0, of the tree of the one key `0` with value hash `5`. -/
def sampleRestore : JellyfishMerkleRestore Nat Nat (List (NodeKey × Node Nat Nat)) :=
  newOverwrite [] 0 (sampleHasher.leaf 0 5)

/-- The node keys a restore wrote, with the hashes of the nodes. -/
def writtenHashes (st : JellyfishMerkleRestore Nat Nat (List (NodeKey × Node Nat Nat))) :
    List (NodeKey × Except (JmtError Nat) Nat) :=
  st.store.map fun written => (written.1, written.2.hash sampleHasher)

set_option maxRecDepth 2000 in
/-- The chunk of key `0` with the wrong value hash `6` is rejected, but its key is
received: the chunk with the right value is then accepted and skipped, and the
restore writes a root of hash `7`, not the expected `6`, which it writes when
offered the right chunk only. -/
theorem rejected_chunk_is_kept :
    ∃ st₁ st₂ st₃ st₄,
      addChunkImpl sampleEnv [(0, 6)] ⟨[]⟩ sampleRestore = .error (.rootHashesDoNotMatch 7 6) st₁ ∧
      st₁.previousLeaf = some ⟨0, 6, (0, 0)⟩ ∧ st₁.numKeysReceived = 1 ∧
      addChunkImpl sampleEnv [(0, 5)] ⟨[]⟩ st₁ = .ok () st₁ ∧
      finishImpl sampleEnv st₁ = .ok () st₂ ∧ writtenHashes st₂ = [(NodeKey.newEmptyPath 0, .ok 7)] ∧
      addChunkImpl sampleEnv [(0, 5)] ⟨[]⟩ sampleRestore = .ok () st₃ ∧
      finishImpl sampleEnv st₃ = .ok () st₄ ∧ writtenHashes st₄ = [(NodeKey.newEmptyPath 0, .ok 6)] :=
  ⟨_, _, _, _, rfl, rfl, rfl, rfl, rfl, rfl, rfl, rfl, rfl⟩

/-! ## A duplicate chunk offered as the last -/

/-- The root hash of the tree of key `0` with value hash `5` and key `2 ^ 255` with
value hash `6`. -/
def twoKeyRoot : Nat :=
  sampleHasher.internal (sampleHasher.leaf 0 5) (sampleHasher.leaf (Fin.ofNat _ (2 ^ 255)) 6)

/-- A fresh restore, at version 0, of that tree. -/
def twoKeyRestore : JellyfishMerkleRestore Nat Nat (List (NodeKey × Node Nat Nat)) :=
  newOverwrite [] 0 twoKeyRoot

set_option maxRecDepth 2000 in
/-- The chunk of the first key, with the honest proof of the second key on its
right, is accepted. The same chunk again, with a proof of no right siblings (a last
chunk to state sync), is accepted unchecked, and the restore then writes the tree
of the first key alone, of root hash `6`, not the expected root. -/
theorem duplicate_last_chunk_finishes_wrong_tree :
    ∃ st₁ st₂,
      addChunkImpl sampleEnv [(0, 5)] ⟨[sampleHasher.leaf (Fin.ofNat _ (2 ^ 255)) 6]⟩ twoKeyRestore = .ok () st₁ ∧
      addChunkImpl sampleEnv [(0, 5)] ⟨[]⟩ st₁ = .ok () st₁ ∧
      finishImpl sampleEnv st₁ = .ok () st₂ ∧ writtenHashes st₂ = [(NodeKey.newEmptyPath 0, .ok 6)] ∧
      twoKeyRestore.expectedRootHash ≠ 6 :=
  ⟨_, _, rfl, rfl, rfl, rfl, by decide⟩

end AptosCore.JellyfishMerkleRestore
