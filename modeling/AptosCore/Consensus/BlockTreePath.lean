import AptosCore.Consensus.BlockTree

/-!
# The path from a root to a block

`path_from_root_to_block` walks from a block down its parent links while the blocks are above
the round of the root, and returns the blocks it passed, the earliest round first, when it stops
at the root. `PathFromRoot` says what such a path is: a chain of parent links in the tree from
the root, a block at or below the root's round, to the block, each block of the chain above that
round.

The path returned is exactly such a chain (`pathFromRootToBlock_eq_some_iff`). One way is the
walk read backwards. For the other, the walk has fuel for every block of the tree, and a chain
passes each block at most once: the walk from a block is determined by the block, so a block
passed twice would be followed by the root early, and the root is not above its round.
-/

namespace AptosCore.Consensus

variable {A PK Sig : Type} [LinearOrder A]

namespace BlockTree

variable (t : BlockTree A PK Sig)

/-- `path` leads in the tree from `rootId`, a block at or below `rootRound`, to `blockId`:
the last block of `path` is `blockId`'s, above `rootRound`, and the path before it leads from
the root to its parent. -/
inductive PathFromRoot (rootId : HashValue) (rootRound : Nat) :
    HashValue → List (ExecutedBlock A PK Sig) → Prop
  | root {rootBlock : ExecutedBlock A PK Sig} :
      t.getBlock rootId = some rootBlock → rootBlock.round ≤ rootRound →
      PathFromRoot rootId rootRound rootId []
  | step {blockId : HashValue} {block : ExecutedBlock A PK Sig} {path : List (ExecutedBlock A PK Sig)} :
      t.getBlock blockId = some block → rootRound < block.round →
      PathFromRoot rootId rootRound block.parentId path →
      PathFromRoot rootId rootRound blockId (path ++ [block])

/-- The parent link the walk follows from a block of the tree. -/
def parentIdOf (blockId : HashValue) : HashValue :=
  match t.getBlock blockId with
  | some block => block.parentId
  | none => blockId

variable {t} {rootId : HashValue} {rootRound : Nat}

theorem mem_getAllBlockId_of_getBlock {blockId : HashValue} {block : ExecutedBlock A PK Sig}
    (h : t.getBlock blockId = some block) : blockId ∈ t.getAllBlockId := by
  obtain ⟨lb, hlb, -⟩ := Option.map_eq_some_iff.mp h
  obtain ⟨l₁, l₂, hl, -⟩ := List.lookup_eq_some_iff.mp hlb
  exact List.mem_map.mpr ⟨(blockId, lb), by rw [hl]; simp, rfl⟩

/-! ## The walk read backwards -/

/-- What the walk returns: it stopped at a block at or below the root's round, and the blocks
it passed lead there from the block it started at. -/
theorem pathFromRootToBlockLoop_eq_some :
    ∀ {fuel : Nat} {curBlockId c : HashValue} {res res' : List (ExecutedBlock A PK Sig)},
      t.pathFromRootToBlockLoop rootRound fuel curBlockId res = .ok (some (c, res')) →
      ∃ mid, res' = res ++ mid ∧ t.PathFromRoot c rootRound curBlockId mid.reverse
  | 0, _, _, _, _, h => by cases h
  | fuel + 1, curBlockId, c, res, res', h => by
    unfold pathFromRootToBlockLoop at h
    cases hget : t.getBlock curBlockId with
    | none => simp only [hget] at h; cases h
    | some block =>
      simp only [hget] at h
      split at h
      · -- the walk stops here: this is the root
        cases h
        exact ⟨[], (List.append_nil _).symm, .root hget (by assumption)⟩
      · obtain ⟨mid, rfl, hpath⟩ := pathFromRootToBlockLoop_eq_some h
        refine ⟨block :: mid, by simp, ?_⟩
        rw [List.reverse_cons]
        exact .step hget (by omega) hpath

/-- A walk along a path, with fuel for all of it, returns it. -/
theorem pathFromRootToBlockLoop_of_pathFromRoot {curBlockId : HashValue}
    {path : List (ExecutedBlock A PK Sig)} (h : t.PathFromRoot rootId rootRound curBlockId path) :
    ∀ fuel res, path.length < fuel →
      t.pathFromRootToBlockLoop rootRound fuel curBlockId res = .ok (some (rootId, res ++ path.reverse)) := by
  induction h with
  | root hget hround =>
    intro fuel res hfuel
    obtain ⟨fuel, rfl⟩ : ∃ f, fuel = f + 1 := ⟨fuel - 1, by simp at hfuel; omega⟩
    simp [pathFromRootToBlockLoop, hget, hround]
  | step hget hround _ ih =>
    rename_i block path _
    intro fuel res hfuel
    obtain ⟨fuel, rfl⟩ : ∃ f, fuel = f + 1 := ⟨fuel - 1, by simp at hfuel; omega⟩
    have hlt : path.length < fuel := by simp at hfuel; omega
    simp only [pathFromRootToBlockLoop, hget, Nat.not_le.mpr hround, if_false]
    rw [ih fuel (res ++ [block]) hlt]
    simp

/-! ## A path passes each block once -/

/-- Along a path the walk's links lead from the block to the root, past blocks above the
root's round. -/
theorem PathFromRoot.iterate {blockId : HashValue} {path : List (ExecutedBlock A PK Sig)}
    (h : t.PathFromRoot rootId rootRound blockId path) :
    (t.parentIdOf)^[path.length] blockId = rootId ∧
      ∀ i < path.length, ∃ block, t.getBlock ((t.parentIdOf)^[i] blockId) = some block ∧
        rootRound < block.round := by
  induction h with
  | root => exact ⟨rfl, fun i hi => absurd hi (Nat.not_lt_zero i)⟩
  | step hget hround _ ih =>
    rename_i blockId block path _
    -- the first link is the block's own parent
    have hnext : t.parentIdOf blockId = block.parentId := by simp [parentIdOf, hget]
    refine ⟨?_, fun i hi => ?_⟩
    · rw [List.length_append, List.length_singleton, Function.iterate_succ_apply, hnext]
      exact ih.1
    · cases i with
      | zero => exact ⟨block, hget, hround⟩
      | succ i =>
        rw [Function.iterate_succ_apply, hnext]
        exact ih.2 i (by simp at hi; omega)

theorem PathFromRoot.root_block {blockId : HashValue} {path : List (ExecutedBlock A PK Sig)}
    (h : t.PathFromRoot rootId rootRound blockId path) :
    ∃ rootBlock, t.getBlock rootId = some rootBlock ∧ rootBlock.round ≤ rootRound := by
  induction h with
  | root hget hround => exact ⟨_, hget, hround⟩
  | step _ _ _ ih => exact ih

/-- A path passes each block of the tree at most once, so it is no longer than the tree. -/
theorem PathFromRoot.length_le {blockId : HashValue} {path : List (ExecutedBlock A PK Sig)}
    (h : t.PathFromRoot rootId rootRound blockId path) : path.length ≤ t.idToBlock.length := by
  obtain ⟨hend, habove⟩ := h.iterate
  obtain ⟨rootBlock, hroot, hround⟩ := h.root_block
  set n := path.length
  set f := fun i => (t.parentIdOf)^[i] blockId
  -- two steps of the walk at one block: the walk from there reaches the root too early
  have hinj : ∀ i ∈ List.range n, ∀ j ∈ List.range n, f i = f j → i = j := by
    intro i hi j hj hij
    rw [List.mem_range] at hi hj
    by_contra hne
    wlog hlt : i < j generalizing i j
    · exact this j hj i hi hij.symm (Ne.symm hne) (by omega)
    have hearly : f (n - j + i) = rootId := by
      calc f (n - j + i)
          = (t.parentIdOf)^[n - j] (f i) := Function.iterate_add_apply _ _ _ _
        _ = (t.parentIdOf)^[n - j] (f j) := by rw [hij]
        _ = f (n - j + j) := (Function.iterate_add_apply _ _ _ _).symm
        _ = rootId := by rw [Nat.sub_add_cancel hj.le]; exact hend
    obtain ⟨block, hget, habove'⟩ := habove (n - j + i) (by omega)
    have hblock : block = rootBlock := by
      have hget' : t.getBlock rootId = some block := hearly ▸ hget
      rw [hroot] at hget'
      exact (Option.some.inj hget').symm
    rw [hblock] at habove'
    omega
  have hnodup : ((List.range n).map f).Nodup := List.Nodup.map_on hinj List.nodup_range
  have hsub : (List.range n).map f ⊆ t.getAllBlockId := by
    intro k hk
    obtain ⟨i, hi, rfl⟩ := List.mem_map.mp hk
    obtain ⟨block, hget, -⟩ := habove i (List.mem_range.mp hi)
    exact mem_getAllBlockId_of_getBlock hget
  calc n = ((List.range n).map f).length := by simp
    _ ≤ t.getAllBlockId.length := hnodup.length_le_of_subset hsub
    _ = t.idToBlock.length := List.length_map _

/-! ## The path returned -/

/-- `path_from_root_to_block` returns a path exactly when the path leads in the tree from the
root to the block. -/
theorem pathFromRootToBlock_eq_some_iff (t : BlockTree A PK Sig) (blockId rootId : HashValue)
    (rootRound : Nat) (path : List (ExecutedBlock A PK Sig)) :
    t.pathFromRootToBlock blockId rootId rootRound = .ok (some path) ↔
      t.PathFromRoot rootId rootRound blockId path := by
  constructor
  · intro h
    unfold pathFromRootToBlock at h
    cases hloop : t.pathFromRootToBlockLoop rootRound (t.idToBlock.length + 1) blockId [] with
    | error e => simp only [hloop] at h; cases h
    | ok r =>
      simp only [hloop, bind, Except.bind] at h
      rcases r with _ | ⟨c, res⟩
      · cases h
      · obtain ⟨mid, rfl, hpath⟩ := pathFromRootToBlockLoop_eq_some hloop
        dsimp only at h
        split_ifs at h with hc
        · cases h
        · have hp := Option.some.inj (Except.ok.inj h)
          rw [← hp, ← not_ne_iff.mp hc]
          simpa using hpath
  · intro h
    have hfuel : path.length < t.idToBlock.length + 1 := Nat.lt_succ_of_le h.length_le
    simp [pathFromRootToBlock, pathFromRootToBlockLoop_of_pathFromRoot h _ [] hfuel, bind, Except.bind]

end BlockTree

end AptosCore.Consensus
