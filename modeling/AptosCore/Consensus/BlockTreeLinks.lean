import AptosCore.Consensus.BlockTreePrune
import AptosCore.Consensus.BlockTreeRuns

/-!
# The links of the block tree over the calls of `BlockStore`

`BlockStore` makes five calls on its tree (`Op.Issued`): `insert_block` of a block whose parent,
if in the tree, is of a lower round (what `Block::verify_well_formed` checks of the parent its
certificate names), `insert_quorum_cert`, `replace_2chain_timeout_cert`, `update_ordered_root`,
and `commit_callback` of a block below the commit root whose commit decision commits it at a
round above that of the highest commit certificate. It calls `update_commit_root` and
`process_pruned_blocks` only from a test helper.

Over every run of such calls from `BlockTree::new` the tree stays `Linked` from its commit root:
its links form a forest of rising rounds (`LinksOk`), the commit root is in the tree, and the
pruned ids wait in a queue of distinct blocks of the tree, none below the commit root, in which
a block listing a queued block is queued before it. The last is what makes it safe to evict the
oldest pruned blocks: no block left in the tree lists the block evicted, so a child a block lists
is never missing, and `find_blocks_to_prune` never reaches its `expect`. A commit then prunes
exactly the blocks below the old commit root and not below the committed block, evicts the
oldest waiting ones, leaves the committed block's subtree as it was, and makes the committed
block the commit root (`issued_commitCallback_spec`).
-/

namespace AptosCore.Consensus

open TreeWalk

variable {A PK Sig : Type} [LinearOrder A]

namespace BlockTree

/-- The tree is linked from `root`: its links form a forest of rising rounds with one entry per
block, `root` is in the tree, and the pruned ids are distinct blocks of the tree, none below
`root`, each queued after every block that lists it, as are the blocks that list `root`. -/
structure Linked (t : BlockTree A PK Sig) (root : HashValue) : Prop where
  links : t.LinksOk
  keys_nodup : (t.idToBlock.map Prod.fst).Nodup
  root_exists : t.blockExists root = true
  pruned_nodup : t.prunedBlockIds.Nodup
  pruned_exists : ∀ id ∈ t.prunedBlockIds, t.blockExists id = true
  pruned_apart : ∀ id ∈ t.prunedBlockIds, ¬t.Reach root id
  pruned_parent : ∀ c ∈ t.prunedBlockIds, ∀ p, c ∈ t.childIds p → p ∈ t.prunedBlockIds
  pruned_order : t.prunedBlockIds.Pairwise fun a b => a ∉ t.childIds b
  root_parent : ∀ p, root ∈ t.childIds p → p ∈ t.prunedBlockIds

variable {t t' : BlockTree A PK Sig}

theorem blockExists_of_getLinkableBlock {blockId : HashValue} {lb : LinkableBlock A PK Sig}
    (h : t.getLinkableBlock blockId = some lb) : t.blockExists blockId = true := by
  simp [blockExists, h]

/-- With one entry per block, an entry is the block its key names. -/
theorem getLinkableBlock_of_mem (hkeys : (t.idToBlock.map Prod.fst).Nodup)
    {e : HashValue × LinkableBlock A PK Sig} (he : e ∈ t.idToBlock) : t.getLinkableBlock e.1 = some e.2 :=
  AssocMap.lookup_of_mem hkeys he

/-- Everything below a block of the tree is in the tree. -/
theorem LinksOk.blockExists_of_reach (hlinks : t.LinksOk) {x y : HashValue}
    (hx : t.blockExists x = true) (h : t.Reach x y) : t.blockExists y = true := by
  induction h with
  | refl => exact hx
  | tail _ hc _ =>
    obtain ⟨child, hchild, -⟩ := hlinks.child_of_mem hc
    exact blockExists_of_getLinkableBlock hchild

/-- A block of a forest lists no block above it, itself included. -/
theorem LinksOk.not_mem_childIds_of_reach (hlinks : t.LinksOk) {x y : HashValue} (h : t.Reach x y) :
    x ∉ t.childIds y := fun hx => hlinks.forest.not_reach_of_mem hx h

/-! ## Trees that agree on the blocks and the queue -/

theorem LinksOk.congr (hlinks : t.LinksOk) (hblocks : t'.idToBlock = t.idToBlock) : t'.LinksOk := by
  have hget : t'.getLinkableBlock = t.getLinkableBlock := funext fun x => by
    simp only [getLinkableBlock, hblocks]
  exact ⟨by rw [hblocks]; exact hlinks.key_eq, by rw [hblocks]; exact hlinks.nodup,
    by rw [hblocks, hget]; exact hlinks.child⟩

/-- `Linked` reads only the blocks and the queue of pruned ids. -/
theorem Linked.congr {root : HashValue} (h : t.Linked root) (hblocks : t'.idToBlock = t.idToBlock)
    (hpruned : t'.prunedBlockIds = t.prunedBlockIds) : t'.Linked root := by
  have hget : t'.getLinkableBlock = t.getLinkableBlock := funext fun x => by
    simp only [getLinkableBlock, hblocks]
  have hchild : t'.childIds = t.childIds := funext fun x => by simp only [childIds, hget]
  have hexists : t'.blockExists = t.blockExists := funext fun x => by simp only [blockExists, hget]
  have hreach : t'.Reach = t.Reach := by
    funext x y
    simp only [Reach, hchild]
  refine ⟨h.links.congr hblocks, hblocks ▸ h.keys_nodup, ?_, hpruned ▸ h.pruned_nodup, ?_, ?_, ?_, ?_, ?_⟩
  · rw [hexists]; exact h.root_exists
  · rw [hpruned, hexists]; exact h.pruned_exists
  · rw [hpruned, hreach]; exact h.pruned_apart
  · rw [hpruned, hchild]; exact h.pruned_parent
  · rw [hpruned, hchild]; exact h.pruned_order
  · rw [hpruned, hchild]; exact h.root_parent

/-! ## Inserting a block: a new leaf -/

/-- `insert_block` returns the tree as it was, or adds the block as a new child of its parent. -/
theorem insertBlock_eq_ok {block b : ExecutedBlock A PK Sig} (h : t.insertBlock block = .ok (b, t')) :
    t' = t ∨ ∃ parent, t.getBlock block.id = none ∧ t.getLinkableBlock block.parentId = some parent ∧
      block.id ∉ parent.children ∧
      t' = { t with idToBlock := (AssocMap.set block.id (LinkableBlock.new block)
        (AssocMap.set block.parentId { parent with children := parent.children ++ [block.id] } t.idToBlock)) } := by
  unfold insertBlock at h
  split at h
  · cases h
    exact Or.inl rfl
  rename_i hnew
  split at h
  · cases h
  rename_i parent hparent
  simp only [ExceptCheck.bind_eq_ok] at h
  obtain ⟨parent', hadd, h⟩ := h
  unfold LinkableBlock.addChild at hadd
  split at hadd
  · cases hadd
  rename_i hfresh
  cases hadd
  cases h
  exact Or.inr ⟨parent, hnew, hparent, hfresh, rfl⟩

section Leaf

variable {block : ExecutedBlock A PK Sig} {parent : LinkableBlock A PK Sig}
  (hnew : t.getBlock block.id = none) (hparent : t.getLinkableBlock block.parentId = some parent)
  (hblocks : t'.idToBlock = AssocMap.set block.id (LinkableBlock.new block)
    (AssocMap.set block.parentId { parent with children := parent.children ++ [block.id] } t.idToBlock))
include hnew hparent hblocks

omit hblocks in
theorem id_ne_parentId : block.id ≠ block.parentId := by
  intro heq
  rw [heq] at hnew
  simp [getBlock, hparent] at hnew

omit hparent hblocks in
theorem getLinkableBlock_id_eq_none : t.getLinkableBlock block.id = none := by
  simpa [getBlock] using hnew

omit hnew hparent in
theorem getLinkableBlock_leaf (x : HashValue) :
    t'.getLinkableBlock x = if x = block.id then some (LinkableBlock.new block)
      else if x = block.parentId then some { parent with children := parent.children ++ [block.id] }
      else t.getLinkableBlock x := by
  simp only [getLinkableBlock, hblocks, AssocMap.lookup_set]

omit hnew in
theorem childIds_leaf (x : HashValue) :
    t'.childIds x = if x = block.id then []
      else if x = block.parentId then t.childIds block.parentId ++ [block.id] else t.childIds x := by
  rw [childIds_of_getLinkableBlock hparent]
  unfold childIds
  rw [getLinkableBlock_leaf hblocks]
  split_ifs <;> rfl

/-- A block of the tree keeps its entry, with the block's children and possibly the new one. -/
theorem getLinkableBlock_leaf_of_eq {x : HashValue} {lb : LinkableBlock A PK Sig}
    (hx : t.getLinkableBlock x = some lb) :
    ∃ lb', t'.getLinkableBlock x = some lb' ∧ lb'.executedBlock = lb.executedBlock := by
  have hne : x ≠ block.id := by
    rintro rfl
    rw [getLinkableBlock_id_eq_none hnew] at hx
    cases hx
  rw [getLinkableBlock_leaf hblocks, if_neg hne]
  split_ifs with hpx
  · subst hpx
    rw [hparent] at hx
    cases hx
    exact ⟨_, rfl, rfl⟩
  · exact ⟨lb, hx, rfl⟩

theorem blockExists_leaf_of {x : HashValue} (hx : t.blockExists x = true) : t'.blockExists x = true := by
  obtain ⟨lb, hlb⟩ := Option.isSome_iff_exists.mp hx
  obtain ⟨lb', hlb', -⟩ := getLinkableBlock_leaf_of_eq hnew hparent hblocks hlb
  exact blockExists_of_getLinkableBlock hlb'

omit hnew in
/-- Below a block is now what was, and the new block. -/
theorem reach_leaf {x y : HashValue} (h : t'.Reach x y) : t.Reach x y ∨ y = block.id := by
  refine Reach.or_eq_of_leaf (fun p c hc => ?_) ?_ h
  · rw [childIds_leaf hparent hblocks] at hc
    split_ifs at hc with hp₁ hp₂
    · cases hc
    · rcases List.mem_append.mp hc with hc | hc
      · exact Or.inl (hp₂ ▸ hc)
      · exact Or.inr (List.mem_singleton.mp hc)
    · exact Or.inl hc
  · rw [childIds_leaf hparent hblocks, if_pos rfl]

/-- The new block is a child of its parent, of a higher round, so the links still form a
forest of rising rounds. -/
theorem LinksOk.leaf (hlinks : t.LinksOk) (hfresh : block.id ∉ parent.children)
    (hround : ∀ p, t.getBlock block.parentId = some p → p.round < block.round) : t'.LinksOk := by
  have hparentMem := mem_of_getLinkableBlock hparent
  -- a child the tree listed is still there, with its block
  have hold : ∀ e ∈ t.idToBlock, ∀ c ∈ e.2.children, ∃ child, t'.getLinkableBlock c = some child ∧
      child.executedBlock.parentId = e.1 ∧ e.2.executedBlock.round < child.executedBlock.round := by
    intro e he c hc
    obtain ⟨child, hchild, hpar, hr⟩ := hlinks.child e he c hc
    obtain ⟨child', hchild', heb⟩ := getLinkableBlock_leaf_of_eq hnew hparent hblocks hchild
    exact ⟨child', hchild', heb ▸ hpar, heb ▸ hr⟩
  refine ⟨fun e he => ?_, fun e he => ?_, fun e he c hc => ?_⟩ <;> rw [hblocks] at he <;>
    rcases AssocMap.mem_set he with rfl | he
  · rfl
  · rcases AssocMap.mem_set he with rfl | he
    · have hid := hlinks.id_eq hparent
      exact hid
    · exact hlinks.key_eq e he
  · exact List.nodup_nil
  · rcases AssocMap.mem_set he with rfl | he
    · refine (hlinks.nodup _ hparentMem).append (List.nodup_singleton _) fun a ha hb => ?_
      rw [List.mem_singleton.mp hb] at ha
      exact hfresh ha
    · exact hlinks.nodup e he
  · cases hc
  · rcases AssocMap.mem_set he with rfl | he
    · rcases List.mem_append.mp hc with hc | hc
      · exact hold _ hparentMem c hc
      · -- the new block, whose parent is of a lower round
        obtain rfl := List.mem_singleton.mp hc
        refine ⟨LinkableBlock.new block, ?_, rfl, hround _ (by simp [getBlock, hparent])⟩
        rw [getLinkableBlock_leaf hblocks, if_pos rfl]
    · exact hold e he c hc

/-- Inserting a block whose parent is of a lower round keeps the tree linked: the new block is
in no queue, lists nothing and is not a root. -/
theorem Linked.leaf {root : HashValue} (h : t.Linked root) (hfresh : block.id ∉ parent.children)
    (hround : ∀ p, t.getBlock block.parentId = some p → p.round < block.round)
    (hpruned : t'.prunedBlockIds = t.prunedBlockIds) : t'.Linked root := by
  -- no queued block, nor the root, is the new one
  have hne : ∀ x, t.blockExists x = true → x ≠ block.id := by
    rintro x hx rfl
    simp [blockExists, getLinkableBlock_id_eq_none hnew] at hx
  have hqne : ∀ c ∈ t.prunedBlockIds, c ≠ block.id := fun c hc => hne c (h.pruned_exists c hc)
  have hrne : root ≠ block.id := hne root h.root_exists
  -- a link to a block other than the new one is an old link
  have hlink : ∀ p c, c ≠ block.id → c ∈ t'.childIds p → c ∈ t.childIds p := by
    intro p c hc hcp
    rw [childIds_leaf hparent hblocks] at hcp
    split_ifs at hcp with hp₁ hp₂
    · cases hcp
    · rcases List.mem_append.mp hcp with hcp | hcp
      · exact hp₂ ▸ hcp
      · exact absurd (List.mem_singleton.mp hcp) hc
    · exact hcp
  refine ⟨h.links.leaf hnew hparent hblocks hfresh hround, ?_,
    blockExists_leaf_of hnew hparent hblocks h.root_exists, hpruned ▸ h.pruned_nodup, ?_, ?_, ?_, ?_, ?_⟩
  · rw [hblocks]
    exact AssocMap.nodup_keys_set _ _ (AssocMap.nodup_keys_set _ _ h.keys_nodup)
  · rw [hpruned]
    exact fun c hc => blockExists_leaf_of hnew hparent hblocks (h.pruned_exists c hc)
  · rw [hpruned]
    intro c hc hreach
    rcases reach_leaf hparent hblocks hreach with hreach | rfl
    · exact h.pruned_apart c hc hreach
    · exact hqne _ hc rfl
  · rw [hpruned]
    exact fun c hc p hcp => h.pruned_parent c hc p (hlink p c (hqne c hc) hcp)
  · rw [hpruned]
    exact h.pruned_order.imp_of_mem fun ha _ hab hab' => hab (hlink _ _ (hqne _ ha) hab')
  · rw [hpruned]
    exact fun p hp => h.root_parent p (hlink p root hrne hp)

end Leaf

/-! ## Evicting the oldest pruned block -/

theorem getLinkableBlock_removeBlock (c x : HashValue) :
    (t.removeBlock c).getLinkableBlock x = if x = c then none else t.getLinkableBlock x := by
  simp only [removeBlock, getLinkableBlock]
  rw [AssocMap.lookup_filter_fst (fun k => decide (k ≠ c))]
  by_cases hx : x = c <;> simp [hx]

theorem childIds_removeBlock (c x : HashValue) :
    (t.removeBlock c).childIds x = if x = c then [] else t.childIds x := by
  unfold childIds
  rw [getLinkableBlock_removeBlock]
  split_ifs <;> rfl

theorem blockExists_removeBlock {c x : HashValue} (hx : x ≠ c) :
    (t.removeBlock c).blockExists x = t.blockExists x := by
  simp only [blockExists, getLinkableBlock_removeBlock, if_neg hx]

theorem reach_of_reach_removeBlock {c x y : HashValue} (h : (t.removeBlock c).Reach x y) : t.Reach x y :=
  Reach.mono (fun p => by rw [childIds_removeBlock]; split_ifs <;> simp) h

/-- Removing a block that no block lists keeps the links a forest of rising rounds. -/
theorem LinksOk.removeBlock (hlinks : t.LinksOk) (hkeys : (t.idToBlock.map Prod.fst).Nodup) {c : HashValue}
    (hc : ∀ p, c ∉ t.childIds p) : (t.removeBlock c).LinksOk := by
  refine ⟨fun e he => hlinks.key_eq e (List.mem_of_mem_filter he),
    fun e he => hlinks.nodup e (List.mem_of_mem_filter he), fun e he d hd => ?_⟩
  have he' := List.mem_of_mem_filter he
  obtain ⟨child, hchild, hpar, hr⟩ := hlinks.child e he' d hd
  -- the child is not the block removed, which no block lists
  have hdc : d ≠ c := by
    rintro rfl
    exact hc e.1 (by rw [childIds_of_getLinkableBlock (getLinkableBlock_of_mem hkeys he')]; exact hd)
  exact ⟨child, by rw [getLinkableBlock_removeBlock, if_neg hdc]; exact hchild, hpar, hr⟩

/-- The oldest pruned block is listed by no block: a block listing it would be queued, so before
it. -/
theorem Linked.not_mem_childIds_front {root c : HashValue} {rest : List HashValue} (h : t.Linked root)
    (hq : t.prunedBlockIds = c :: rest) (p : HashValue) : c ∉ t.childIds p := by
  intro hcp
  have hp := h.pruned_parent c (by rw [hq]; exact List.mem_cons_self) p hcp
  rw [hq] at hp
  rcases List.mem_cons.mp hp with rfl | hp
  · exact h.links.not_mem_childIds_of_reach (Reach.refl _) hcp
  · have horder := h.pruned_order
    rw [hq] at horder
    exact (List.rel_of_pairwise_cons horder hp) hcp

/-- One round of the loop of `process_pruned_blocks` keeps the tree linked. -/
theorem Linked.evict {root c : HashValue} {rest : List HashValue} (h : t.Linked root)
    (hq : t.prunedBlockIds = c :: rest) : ({ t with prunedBlockIds := rest }.removeBlock c).Linked root := by
  have hfront := h.not_mem_childIds_front hq
  have hmem : ∀ x ∈ rest, x ∈ t.prunedBlockIds := fun x hx => by rw [hq]; exact List.mem_cons_of_mem c hx
  have hnodup := h.pruned_nodup
  rw [hq] at hnodup
  -- the blocks left in the queue are not the one evicted
  have hrest : ∀ x ∈ rest, x ≠ c := fun x hx hxc => (List.nodup_cons.mp hnodup).1 (hxc ▸ hx)
  have hroot : root ≠ c := fun hrc => h.pruned_apart c (by rw [hq]; exact List.mem_cons_self) (hrc ▸ Reach.refl root)
  -- a link of the new tree is a link of the old one, from a block other than the evicted one
  have hlink : ∀ p x, x ∈ ({ t with prunedBlockIds := rest }.removeBlock c).childIds p →
      p ≠ c ∧ x ∈ t.childIds p := by
    intro p x hx
    rw [childIds_removeBlock] at hx
    split_ifs at hx with hpc
    · cases hx
    · exact ⟨hpc, hx⟩
  -- a queued block listing one left in the queue is left in it too
  have hleft : ∀ p, p ∈ t.prunedBlockIds → p ≠ c → p ∈ rest := fun p hp hpc => by
    rw [hq] at hp
    exact (List.mem_cons.mp hp).resolve_left hpc
  refine ⟨(LinksOk.removeBlock h.links h.keys_nodup hfront).congr rfl,
    (List.filter_sublist.map _).nodup h.keys_nodup, ?_, (List.nodup_cons.mp hnodup).2, ?_, ?_, ?_, ?_, ?_⟩
  · rw [blockExists_removeBlock hroot]; exact h.root_exists
  · intro x hx
    rw [blockExists_removeBlock (hrest x hx)]
    exact h.pruned_exists x (hmem x hx)
  · exact fun x hx hreach => h.pruned_apart x (hmem x hx) (reach_of_reach_removeBlock hreach)
  · intro x hx p hxp
    obtain ⟨hpc, hxp⟩ := hlink p x hxp
    exact hleft p (h.pruned_parent x (hmem x hx) p hxp) hpc
  · have horder := h.pruned_order
    rw [hq] at horder
    exact (List.pairwise_cons.mp horder).2.imp fun hab hab' => hab (hlink _ _ hab').2
  · intro p hp
    obtain ⟨hpc, hp⟩ := hlink p root hp
    exact hleft p (h.root_parent p hp) hpc

/-- The loop of `process_pruned_blocks` keeps the tree linked. The induction is on the number of
rounds. -/
theorem Linked.processPrunedBlocksLoop {root : HashValue} :
    ∀ (n : Nat) {t : BlockTree A PK Sig}, t.Linked root → (processPrunedBlocksLoop n t).Linked root
  | 0, _, h => h
  | n + 1, t, h => by
    cases hq : t.prunedBlockIds with
    | nil =>
      simp only [BlockTree.processPrunedBlocksLoop, hq]
      exact Linked.processPrunedBlocksLoop n h
    | cons c rest =>
      simp only [BlockTree.processPrunedBlocksLoop, hq]
      exact Linked.processPrunedBlocksLoop n (h.evict hq)

/-- After `n` rounds of the loop the first `n` pruned ids have left the queue, and their blocks
the tree. The induction is on `n`. -/
theorem processPrunedBlocksLoop_spec :
    ∀ (n : Nat) (t : BlockTree A PK Sig), (processPrunedBlocksLoop n t).prunedBlockIds = t.prunedBlockIds.drop n ∧
      ∀ x, (processPrunedBlocksLoop n t).getLinkableBlock x =
        if x ∈ t.prunedBlockIds.take n then none else t.getLinkableBlock x
  | 0, t => ⟨rfl, fun x => by simp [BlockTree.processPrunedBlocksLoop]⟩
  | n + 1, t => by
    cases hq : t.prunedBlockIds with
    | nil =>
      obtain ⟨hpruned, hget⟩ := processPrunedBlocksLoop_spec n t
      simp only [BlockTree.processPrunedBlocksLoop, hq]
      rw [hq] at hpruned hget
      exact ⟨by rw [hpruned, List.drop_nil, List.drop_nil], fun x => by simpa using hget x⟩
    | cons c rest =>
      obtain ⟨hpruned, hget⟩ := processPrunedBlocksLoop_spec n ({ t with prunedBlockIds := rest }.removeBlock c)
      simp only [BlockTree.processPrunedBlocksLoop, hq]
      refine ⟨by rw [hpruned]; rfl, fun x => ?_⟩
      have hold : ({ t with prunedBlockIds := rest } : BlockTree A PK Sig).getLinkableBlock x = t.getLinkableBlock x :=
        rfl
      rw [hget, getLinkableBlock_removeBlock, hold]
      change (if x ∈ rest.take n then none else if x = c then none else t.getLinkableBlock x) = _
      by_cases hxc : x = c
      · simp [hxc]
      · by_cases hx : x ∈ rest.take n
        · simp [hx]
        · simp [hx, hxc]

theorem processPrunedBlocksLoop_frame :
    ∀ (n : Nat) (t : BlockTree A PK Sig), (processPrunedBlocksLoop n t).highestCommitCert = t.highestCommitCert ∧
      (processPrunedBlocksLoop n t).maxPrunedBlocksInMem = t.maxPrunedBlocksInMem
  | 0, _ => ⟨rfl, rfl⟩
  | n + 1, t => by
    cases hq : t.prunedBlockIds with
    | nil =>
      simp only [BlockTree.processPrunedBlocksLoop, hq]
      exact processPrunedBlocksLoop_frame n t
    | cons c rest =>
      simp only [BlockTree.processPrunedBlocksLoop, hq]
      exact processPrunedBlocksLoop_frame n _

/-! ## Committing a block -/

/-- Queuing the blocks pruned for a new root below the old one keeps the tree linked, from the
new root: the walk queues a block before the blocks it lists, and the old root after the blocks
that list it. -/
theorem Linked.append_pruned {root nextRootId : HashValue} {pruned : List HashValue} (h : t.Linked root)
    (hnext : t.Reach root nextRootId) (hnodup : pruned.Nodup)
    (horder : pruned.Pairwise fun a b => a ∉ t.childIds b)
    (hmem : ∀ y, y ∈ pruned ↔ t.Reach root y ∧ ¬t.Reach nextRootId y) :
    ({ t with prunedBlockIds := t.prunedBlockIds ++ pruned } : BlockTree A PK Sig).Linked nextRootId := by
  have hF := h.links.forest
  -- the one block listing a block other than the root, below the root, is below the root
  have hparent_below : ∀ {c p}, t.Reach root c → c ≠ root → c ∈ t.childIds p → t.Reach root p := by
    intro c p hc hne hcp
    obtain ⟨q, hq, hcq⟩ := hc.exists_parent (Ne.symm hne)
    obtain rfl := hF.parent_unique hcp hcq
    exact hq
  refine ⟨h.links.congr rfl, h.keys_nodup, h.links.blockExists_of_reach h.root_exists hnext, ?_, ?_, ?_, ?_, ?_, ?_⟩
  · exact List.nodup_append.mpr ⟨h.pruned_nodup, hnodup, fun a ha b hb hab =>
      h.pruned_apart a ha (hab ▸ ((hmem b).mp hb).1)⟩
  · intro x hx
    rcases List.mem_append.mp hx with hx | hx
    · exact h.pruned_exists x hx
    · exact h.links.blockExists_of_reach h.root_exists ((hmem x).mp hx).1
  · intro x hx hreach
    rcases List.mem_append.mp hx with hx | hx
    · exact h.pruned_apart x hx (hnext.trans hreach)
    · exact ((hmem x).mp hx).2 hreach
  · intro c hc p hcp
    dsimp only at hc ⊢
    rcases List.mem_append.mp hc with hc | hc
    · exact List.mem_append_left _ (h.pruned_parent c hc p hcp)
    · obtain ⟨hrc, hnc⟩ := (hmem c).mp hc
      by_cases hcr : c = root
      · exact List.mem_append_left _ (h.root_parent p (hcr ▸ hcp))
      · -- the parent of a pruned block is pruned with it
        have hrp := hparent_below hrc hcr hcp
        exact List.mem_append_right _ ((hmem p).mpr ⟨hrp, fun hnp => hnc (hnp.tail hcp)⟩)
  · refine List.pairwise_append.mpr ⟨h.pruned_order, horder, fun a ha b hb hab => ?_⟩
    exact h.pruned_apart a ha (((hmem b).mp hb).1.tail hab)
  · intro p hp
    by_cases hnr : nextRootId = root
    · subst hnr
      exact List.mem_append_left _ (h.root_parent p hp)
    · -- the parent of the new root is below the old root and not below the new one
      have hrp := hparent_below hnext hnr hp
      exact List.mem_append_right _ ((hmem p).mpr ⟨hrp, fun hnp => hF.not_reach_of_mem hp hnp⟩)

/-- `process_pruned_blocks` of the blocks pruned for a new root keeps the tree linked from it. -/
theorem Linked.processPrunedBlocks {root nextRootId : HashValue} {pruned : List HashValue} (h : t.Linked root)
    (hnext : t.Reach root nextRootId) (hnodup : pruned.Nodup)
    (horder : pruned.Pairwise fun a b => a ∉ t.childIds b)
    (hmem : ∀ y, y ∈ pruned ↔ t.Reach root y ∧ ¬t.Reach nextRootId y) :
    (t.processPrunedBlocks pruned).Linked nextRootId := by
  have happ := h.append_pruned hnext hnodup horder hmem
  unfold BlockTree.processPrunedBlocks
  dsimp only
  split
  · exact Linked.processPrunedBlocksLoop _ happ
  · exact happ

/-- What `process_pruned_blocks` leaves: the queue without its oldest ids beyond the bound, and
the tree without their blocks. -/
theorem processPrunedBlocks_spec (pruned : List HashValue) :
    let queue := t.prunedBlockIds ++ pruned
    let n := queue.length - t.maxPrunedBlocksInMem
    (t.processPrunedBlocks pruned).prunedBlockIds = queue.drop n ∧
      (∀ x, (t.processPrunedBlocks pruned).getLinkableBlock x = if x ∈ queue.take n then none else t.getLinkableBlock x) ∧
      (t.processPrunedBlocks pruned).highestCommitCert = t.highestCommitCert := by
  intro queue n
  unfold BlockTree.processPrunedBlocks
  dsimp only
  split
  · obtain ⟨hpruned, hget⟩ := processPrunedBlocksLoop_spec n { t with prunedBlockIds := queue }
    exact ⟨hpruned, hget, (processPrunedBlocksLoop_frame n _).1⟩
  · -- nothing leaves the queue
    rename_i hunder
    have hn : n = 0 := by
      simp only [n, queue] at hunder ⊢
      omega
    simp [hn, queue, getLinkableBlock]

theorem createMergedWithExecutedState_commitInfo {qc commitProof : QuorumCert A PK Sig}
    {executedLedgerInfo : LedgerInfoWithSignatures A PK Sig}
    (h : qc.createMergedWithExecutedState executedLedgerInfo = .ok commitProof) :
    commitProof.commitInfo = executedLedgerInfo.ledgerInfo.commitInfo := by
  unfold QuorumCert.createMergedWithExecutedState at h
  split at h
  · cases h
    rfl
  · cases h

/-- `commit_callback` of a block below the commit root of a linked tree, whose merged commit
certificate commits the block at a higher round: it prunes the blocks the walk finds, and makes
the block the commit root. -/
theorem commitCallback_eq {blocksToCommit : List (ExecutedBlock A PK Sig)} {finalityProof commitProof : QuorumCert A PK Sig}
    {commitDecision : LedgerInfoWithSignatures A PK Sig} {block : ExecutedBlock A PK Sig}
    (h : t.Linked t.commitRootId) (hlast : blocksToCommit.getLast? = some block)
    (hbelow : t.Reach t.commitRootId block.id)
    (hmerge : finalityProof.createMergedWithExecutedState commitDecision = .ok commitProof)
    (hid : commitProof.commitInfo.id = block.id)
    (hround : t.highestCommitCert.commitInfo.round < commitProof.commitInfo.round) :
    ∃ pruned, pruned.Nodup ∧ pruned.Pairwise (fun a b => a ∉ t.childIds b) ∧
      (∀ y, y ∈ pruned ↔ t.Reach t.commitRootId y ∧ ¬t.Reach block.id y) ∧
      t.commitCallback blocksToCommit finalityProof commitDecision =
        .ok { t.processPrunedBlocks pruned with highestCommitCert := commitProof, commitRootId := block.id } := by
  obtain ⟨pruned, hfind, hnodup, horder, hmem⟩ := findBlocksToPrune_eq_ok h.links h.root_exists hbelow
  have hlinked := h.processPrunedBlocks hbelow hnodup horder hmem
  obtain ⟨root, hroot⟩ := Option.isSome_iff_exists.mp h.root_exists
  have hcommitRoot : t.commitRoot = .ok root.executedBlock := by
    simp [commitRoot, expectBlock, getBlock, hroot]
  have hcert := (processPrunedBlocks_spec (t := t) pruned).2.2
  -- the committed block is still in the tree after the eviction
  have hexists : ({ t.processPrunedBlocks pruned with highestCommitCert := commitProof } : BlockTree A PK Sig).blockExists
      block.id = true := hlinked.root_exists
  refine ⟨pruned, hnodup, horder, hmem, ?_⟩
  simp only [commitCallback, hmerge, Except.mapError, hlast, hcommitRoot, hfind, bind, Except.bind,
    updateHighestCommitCert, hcert, if_pos hround, updateCommitRoot, hid, hexists, if_true]

/-- What `process_pruned_blocks` leaves below a block: the evicted blocks list nothing. -/
theorem childIds_processPrunedBlocks (pruned : List HashValue) (x : HashValue) :
    let queue := t.prunedBlockIds ++ pruned
    (t.processPrunedBlocks pruned).childIds x =
      if x ∈ queue.take (queue.length - t.maxPrunedBlocksInMem) then [] else t.childIds x := by
  intro queue
  unfold childIds
  rw [(processPrunedBlocks_spec pruned).2.1 x]
  split_ifs <;> rfl

/-- A commit leaves the subtree of the new root as it was: no block it evicts is below it. -/
theorem reach_processPrunedBlocks_iff {root nextRootId y : HashValue} {pruned : List HashValue} (h : t.Linked root)
    (hnext : t.Reach root nextRootId) (hnodup : pruned.Nodup)
    (horder : pruned.Pairwise fun a b => a ∉ t.childIds b)
    (hmem : ∀ y, y ∈ pruned ↔ t.Reach root y ∧ ¬t.Reach nextRootId y) :
    (t.processPrunedBlocks pruned).Reach nextRootId y ↔ t.Reach nextRootId y := by
  have happ := h.append_pruned hnext hnodup horder hmem
  have hchild := childIds_processPrunedBlocks (t := t) pruned
  constructor
  · refine fun hr => Reach.mono (fun p => ?_) hr
    rw [hchild p]
    split_ifs
    · exact List.nil_subset _
    · exact List.Subset.refl _
  · refine fun hr => Reach.of_eq_below hr fun p hp => ?_
    -- what is evicted was queued, so not below the new root
    rw [hchild p, if_neg fun hev => happ.pruned_apart p (List.mem_of_mem_take hev) hp]

/-! ## Runs of the calls of `BlockStore` -/

/-- The check `BlockStore` makes before each call, at the tree it calls: a block inserted has a
parent of a lower round if its parent is in the tree, and a block committed is the last of the
blocks to commit, below the commit root, and what the commit decision commits, at a round above
that of the highest commit certificate. It does not call `update_commit_root` or
`process_pruned_blocks` itself. -/
def Op.Issued (t : BlockTree A PK Sig) : Op A PK Sig → Prop
  | .insertBlock block => ∀ parent, t.getBlock block.parentId = some parent → parent.round < block.round
  | .insertQuorumCert _ => True
  | .replace2chainTimeoutCert _ => True
  | .updateOrderedRoot _ => True
  | .updateCommitRoot _ => False
  | .processPrunedBlocks _ => False
  | .commitCallback blocksToCommit _ commitDecision =>
    ∃ block, blocksToCommit.getLast? = some block ∧ t.Reach t.commitRootId block.id ∧
      commitDecision.ledgerInfo.commitInfo.id = block.id ∧
      t.highestCommitCert.commitInfo.round < commitDecision.ledgerInfo.commitInfo.round

/-- Every call of a run is one `BlockStore` makes, checked at the tree it is made on. -/
def Issues : BlockTree A PK Sig → List (Op A PK Sig) → Prop
  | _, [] => True
  | t, op :: ops => Op.Issued t op ∧ ∀ t', Op.apply t op = .ok t' → Issues t' ops

theorem issues_cons {op : Op A PK Sig} {ops : List (Op A PK Sig)} :
    t.Issues (op :: ops) ↔ Op.Issued t op ∧ ∀ t', Op.apply t op = .ok t' → t'.Issues ops :=
  Iff.rfl

/-- One call that `BlockStore` makes keeps the tree linked from its commit root. -/
theorem Op.Issued.linked {op : Op A PK Sig} (hissued : Op.Issued t op) (h : t.Linked t.commitRootId)
    (happly : Op.apply t op = .ok t') : t'.Linked t'.commitRootId := by
  cases op with
  | insertBlock block =>
    obtain ⟨⟨b, t''⟩, hins, rfl⟩ := ExceptCheck.map_eq_ok.mp happly
    rcases insertBlock_eq_ok hins with rfl | ⟨parent, hnew, hparent, hfresh, rfl⟩
    · exact h
    · exact h.leaf hnew hparent rfl hfresh hissued rfl
  | insertQuorumCert qc =>
    obtain ⟨hblocks, hroot, hpruned, -⟩ := insertQuorumCert_frame happly
    rw [hroot]
    exact h.congr hblocks hpruned
  | replace2chainTimeoutCert tc =>
    cases happly
    exact h.congr rfl rfl
  | updateOrderedRoot rootId =>
    obtain rfl := updateOrderedRoot_eq happly
    exact h.congr rfl rfl
  | updateCommitRoot rootId => exact hissued.elim
  | processPrunedBlocks newlyPrunedBlocks => exact hissued.elim
  | commitCallback blocksToCommit finalityProof commitDecision =>
    obtain ⟨block, hlast, hbelow, hid, hround⟩ := hissued
    -- the call returned, so the commit decision merged with the finality proof
    cases hmerge : finalityProof.createMergedWithExecutedState commitDecision with
    | error e =>
      simp [Op.apply, BlockTree.commitCallback, hmerge, Except.mapError, bind, Except.bind] at happly
    | ok commitProof =>
      have hinfo := createMergedWithExecutedState_commitInfo hmerge
      obtain ⟨pruned, hnodup, horder, hmem, hcommit⟩ :=
        commitCallback_eq h hlast hbelow hmerge (hinfo ▸ hid) (hinfo ▸ hround)
      rw [Op.apply, hcommit] at happly
      cases happly
      exact (h.processPrunedBlocks hbelow hnodup horder hmem).congr rfl rfl

/-- A run of calls `BlockStore` makes keeps the tree linked from its commit root. The induction
is on the calls. -/
theorem run_linked : ∀ (ops : List (Op A PK Sig)) {t t' : BlockTree A PK Sig}, t.Issues ops →
    t.Linked t.commitRootId → t.run ops = .ok t' → t'.Linked t'.commitRootId
  | [], t, t', _, h, hrun => by
    cases hrun
    exact h
  | op :: ops, t, t', hissued, h, hrun => by
    unfold run at hrun
    split at hrun
    · rename_i t₁ h₁
      obtain ⟨hop, hops⟩ := issues_cons.mp hissued
      exact run_linked ops (hops t₁ h₁) (hop.linked h h₁) hrun
    · cases hrun

/-- The tree `BlockTree::new` makes, its root alone, is linked. -/
theorem new_linked {root : ExecutedBlock A PK Sig} {rootQuorumCert rootOrderedCert rootCommitCert : QuorumCert A PK Sig}
    {maxPrunedBlocksInMem : Nat} {tc : Option (TwoChainTimeoutCertificate A PK Sig)}
    (h : new root rootQuorumCert rootOrderedCert rootCommitCert maxPrunedBlocksInMem tc = .ok t) :
    t.Linked t.commitRootId := by
  unfold new at h
  split at h
  · cases h
  cases h
  refine ⟨⟨fun e he => ?_, fun e he => ?_, fun e he c hc => ?_⟩, List.nodup_singleton _, ?_, List.nodup_nil,
    fun _ h => absurd h List.not_mem_nil, fun _ h => absurd h List.not_mem_nil,
    fun _ h => absurd h List.not_mem_nil, List.Pairwise.nil, fun p hp => ?_⟩
  · rw [List.mem_singleton.mp he]
    rfl
  · rw [List.mem_singleton.mp he]
    exact List.nodup_nil
  · rw [List.mem_singleton.mp he] at hc
    cases hc
  · simp [blockExists, getLinkableBlock]
  · -- the root lists no child
    by_cases hpr : p = root.id
    · subst hpr
      simp [childIds, getLinkableBlock, LinkableBlock.new] at hp
    · simp [childIds, getLinkableBlock, List.lookup_cons, beq_false_of_ne hpr] at hp

/-- Over every run of the calls `BlockStore` makes on the tree `BlockTree::new` makes,
`commit_callback` of a block below the commit root, whose commit decision matches the finality
proof and commits the block at a round above the highest commit certificate's, returns: it
prunes exactly the blocks below the old commit root and not below the block, evicts the oldest
waiting beyond `max_pruned_blocks_in_mem` from the queue and from the tree, leaves the block's
subtree as it was, and makes the block the commit root. -/
theorem issued_commitCallback_spec (root : ExecutedBlock A PK Sig)
    (rootQuorumCert rootOrderedCert rootCommitCert : QuorumCert A PK Sig) (maxPrunedBlocksInMem : Nat)
    (tc : Option (TwoChainTimeoutCertificate A PK Sig)) (ops : List (Op A PK Sig)) {t₀ t : BlockTree A PK Sig}
    (h₀ : new root rootQuorumCert rootOrderedCert rootCommitCert maxPrunedBlocksInMem tc = .ok t₀)
    (hissued : t₀.Issues ops) (hrun : t₀.run ops = .ok t)
    (blocksToCommit : List (ExecutedBlock A PK Sig)) (finalityProof : QuorumCert A PK Sig)
    (commitDecision : LedgerInfoWithSignatures A PK Sig) {block : ExecutedBlock A PK Sig}
    (hlast : blocksToCommit.getLast? = some block) (hbelow : t.Reach t.commitRootId block.id)
    (hid : commitDecision.ledgerInfo.commitInfo.id = block.id)
    (hround : t.highestCommitCert.commitInfo.round < commitDecision.ledgerInfo.commitInfo.round)
    (hmatch : finalityProof.commitInfo.matchOrderedOnly commitDecision.ledgerInfo.commitInfo = true) :
    ∃ t' pruned, t.commitCallback blocksToCommit finalityProof commitDecision = .ok t' ∧
      t'.commitRootId = block.id ∧
      (∀ y, y ∈ pruned ↔ t.Reach t.commitRootId y ∧ ¬t.Reach block.id y) ∧
      t'.prunedBlockIds = (t.prunedBlockIds ++ pruned).drop
        ((t.prunedBlockIds ++ pruned).length - t.maxPrunedBlocksInMem) ∧
      (∀ y, t'.blockExists y = true ↔ t.blockExists y = true ∧
        y ∉ (t.prunedBlockIds ++ pruned).take ((t.prunedBlockIds ++ pruned).length - t.maxPrunedBlocksInMem)) ∧
      ∀ y, t'.Reach block.id y ↔ t.Reach block.id y := by
  have h := run_linked ops hissued (new_linked h₀) hrun
  have hmerge : finalityProof.createMergedWithExecutedState commitDecision =
      .ok ⟨finalityProof.voteData, commitDecision⟩ := by
    simp [QuorumCert.createMergedWithExecutedState, hmatch]
  obtain ⟨pruned, hnodup, horder, hmem, hcommit⟩ := commitCallback_eq h hlast hbelow hmerge hid hround
  obtain ⟨hqueue, hget, -⟩ := processPrunedBlocks_spec (t := t) pruned
  refine ⟨_, pruned, hcommit, rfl, hmem, hqueue, fun y => ?_,
    fun y => reach_processPrunedBlocks_iff h hbelow hnodup horder hmem⟩
  -- an evicted block leaves the tree, and no other does
  change (t.processPrunedBlocks pruned).blockExists y = true ↔ _
  simp only [blockExists, hget y]
  split_ifs with hy
  · simp only [Option.isSome_none, Bool.false_eq_true, false_iff, not_and, not_not]
    exact fun _ => hy
  · exact ⟨fun hx => ⟨hx, hy⟩, And.left⟩

/-- A ledger info that commits the block at `id`, of round `round`. -/
def sampleLedgerInfo (id : HashValue) (round : Nat) : LedgerInfoWithSignatures Nat Nat Nat :=
  ⟨⟨⟨0, round, id, 0, 0, 0, none⟩, 0⟩, []⟩

/-- A certificate whose ledger info commits the block at `id`, of round `round`. -/
def sampleCommitCert (id : HashValue) (round : Nat) : QuorumCert Nat Nat Nat :=
  ⟨⟨⟨0, round, id, 0, 0, 0, none⟩, BlockInfo.empty⟩, sampleLedgerInfo id round⟩

/-- `twoBlockTree` after the commit of the block `2`: the block `1` waits pruned, in memory. -/
def committedTree : BlockTree Nat Nat Nat :=
  { twoBlockTree with commitRootId := 2, highestCommitCert := sampleCommitCert 2 1, prunedBlockIds := [1] }

example : twoBlockTree.commitCallback [sampleBlock 2 1 1] (sampleCommitCert 2 1) (sampleLedgerInfo 2 1) =
    .ok committedTree := rfl

/-- The root of `rootTree` is of a lower round than the block `2`. -/
theorem rootTree_issued_insert : Op.Issued rootTree (.insertBlock (sampleBlock 2 1 1)) := by
  intro parent hp
  obtain rfl := Option.some.inj ((show rootTree.getBlock 1 = some (sampleBlock 1 0 0) from rfl).symm.trans hp)
  decide

/-- The commit of the block `2` of `twoBlockTree`. -/
theorem issued_commitCallback_spec_twoBlocks :
    ∃ t' pruned, twoBlockTree.commitCallback [sampleBlock 2 1 1] (sampleCommitCert 2 1) (sampleLedgerInfo 2 1) = .ok t' ∧
      t'.commitRootId = (sampleBlock 2 1 1).id ∧
      (∀ y, y ∈ pruned ↔ twoBlockTree.Reach twoBlockTree.commitRootId y ∧ ¬twoBlockTree.Reach (sampleBlock 2 1 1).id y) ∧
      t'.prunedBlockIds = (twoBlockTree.prunedBlockIds ++ pruned).drop
        ((twoBlockTree.prunedBlockIds ++ pruned).length - twoBlockTree.maxPrunedBlocksInMem) ∧
      (∀ y, t'.blockExists y = true ↔ twoBlockTree.blockExists y = true ∧
        y ∉ (twoBlockTree.prunedBlockIds ++ pruned).take
          ((twoBlockTree.prunedBlockIds ++ pruned).length - twoBlockTree.maxPrunedBlocksInMem)) ∧
      ∀ y, t'.Reach (sampleBlock 2 1 1).id y ↔ twoBlockTree.Reach (sampleBlock 2 1 1).id y :=
  issued_commitCallback_spec (sampleBlock 1 0 0) (sampleCert 1) (sampleCert 1) (sampleCert 1) 1 none
    [.insertBlock (sampleBlock 2 1 1)] rfl (issues_cons.mpr ⟨rootTree_issued_insert, fun _ _ => trivial⟩) rfl
    [sampleBlock 2 1 1] (sampleCommitCert 2 1) (sampleLedgerInfo 2 1) rfl
    (Reach.tail (Reach.refl _) (show (2 : HashValue) ∈ twoBlockTree.childIds 1 by decide)) rfl (by decide) (by decide)

end BlockTree

end AptosCore.Consensus
