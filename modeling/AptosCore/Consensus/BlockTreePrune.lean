import AptosCore.Consensus.BlockTree
import AptosCore.Lib.TreeWalk

/-!
# The blocks a commit prunes

`find_blocks_to_prune` walks the tree from the commit root with a stack, pushing the children of
each block it pops but the new root, and returns every block it popped. On a tree whose links
form a forest (`LinksOk`: every entry keyed by its block's id, every child a block lists in the
tree, naming that block as its parent and of a higher round, and no child listed twice), this is
`TreeWalk.walk` over the child lists with the links into the new root cut. So when the new root
is below the commit root, it returns each block below the commit root and not below the new root
exactly once (`findBlocksToPrune_spec`).
-/

namespace AptosCore.Consensus

open TreeWalk

variable {A PK Sig : Type} [LinearOrder A]

namespace BlockTree

variable (t : BlockTree A PK Sig)

/-- The children a block lists, none for a block not in the tree. -/
def childIds (blockId : HashValue) : List HashValue :=
  match t.getLinkableBlock blockId with
  | some lb => lb.children
  | none => []

/-- `y` is below `x` in the tree. -/
def Reach (x y : HashValue) : Prop := TreeWalk.Reach t.childIds x y

/-- The round of a block, `0` for one not in the tree. -/
def roundOf (blockId : HashValue) : Nat :=
  match t.getBlock blockId with
  | some block => block.round
  | none => 0

/-- The links of the tree form a forest: every entry is keyed by its block's id, no block lists
a child twice, and every child a block lists is in the tree, names that block as its parent and
has a higher round. -/
structure LinksOk : Prop where
  key_eq : ∀ e ∈ t.idToBlock, e.2.id = e.1
  nodup : ∀ e ∈ t.idToBlock, e.2.children.Nodup
  child : ∀ e ∈ t.idToBlock, ∀ c ∈ e.2.children, ∃ child, t.getLinkableBlock c = some child ∧
    child.executedBlock.parentId = e.1 ∧ e.2.executedBlock.round < child.executedBlock.round

variable {t}

theorem mem_of_getLinkableBlock {blockId : HashValue} {lb : LinkableBlock A PK Sig}
    (h : t.getLinkableBlock blockId = some lb) : (blockId, lb) ∈ t.idToBlock :=
  AssocMap.mem_of_lookup_eq_some h

theorem childIds_of_getLinkableBlock {blockId : HashValue} {lb : LinkableBlock A PK Sig}
    (h : t.getLinkableBlock blockId = some lb) : t.childIds blockId = lb.children := by
  simp [childIds, h]

namespace LinksOk

variable (hlinks : t.LinksOk)
include hlinks

theorem id_eq {blockId : HashValue} {lb : LinkableBlock A PK Sig}
    (h : t.getLinkableBlock blockId = some lb) : lb.id = blockId :=
  hlinks.key_eq _ (mem_of_getLinkableBlock h)

/-- A child a block of the tree lists is in the tree, with that block as its parent. -/
theorem child_of_mem {p c : HashValue} (hc : c ∈ t.childIds p) :
    ∃ child, t.getLinkableBlock c = some child ∧ child.executedBlock.parentId = p ∧
      t.roundOf p < child.executedBlock.round := by
  unfold childIds at hc
  split at hc
  · rename_i lb hlb
    obtain ⟨child, hchild, hparent, hround⟩ := hlinks.child _ (mem_of_getLinkableBlock hlb) c hc
    exact ⟨child, hchild, hparent, by simpa [roundOf, getBlock, hlb] using hround⟩
  · cases hc

/-- The child lists of the tree are a forest ranked by round. -/
theorem forest : Forest t.childIds t.roundOf where
  parent_unique {p q c} hp hq := by
    obtain ⟨child, hchild, hparent, -⟩ := hlinks.child_of_mem hp
    obtain ⟨child', hchild', hparent', -⟩ := hlinks.child_of_mem hq
    rw [hchild] at hchild'
    cases hchild'
    rw [← hparent, hparent']
  rank_lt {p c} hc := by
    obtain ⟨child, hchild, -, hround⟩ := hlinks.child_of_mem hc
    simpa [roundOf, getBlock, hchild] using hround
  nodup p := by
    unfold childIds
    split
    · exact hlinks.nodup _ (mem_of_getLinkableBlock (by assumption))
    · exact List.nodup_nil

end LinksOk

/-! ## The walk of `find_blocks_to_prune` -/

/-- Pushing the children of a block: each but the new root is looked up, in the order of the
list, so the stack gets them reversed on top. -/
theorem pushChildren_eq (hlinks : t.LinksOk) (nextRootId : HashValue) :
    ∀ (children : List HashValue) (stack : List (LinkableBlock A PK Sig)),
      (∀ c ∈ children, ∃ lb, t.getLinkableBlock c = some lb) →
      ∃ pushed, t.pushChildren nextRootId children stack = .ok (pushed ++ stack) ∧
        pushed.map LinkableBlock.id = (children.filter (· ≠ nextRootId)).reverse ∧
        ∀ lb ∈ pushed, t.getLinkableBlock lb.id = some lb
  | [], stack, _ => ⟨[], rfl, rfl, fun _ h => absurd h List.not_mem_nil⟩
  | c :: children, stack, hfound => by
    have hrest := fun c' hc' => hfound c' (List.mem_cons_of_mem c hc')
    by_cases hc : nextRootId = c
    · -- the new root is skipped
      obtain ⟨pushed, hpush, hids, hget⟩ := pushChildren_eq hlinks nextRootId children stack hrest
      refine ⟨pushed, ?_, ?_, hget⟩
      · simp only [pushChildren, List.foldlM_cons, if_pos hc]
        exact hpush
      · simpa [hc] using hids
    · obtain ⟨lb, hlb⟩ := hfound c List.mem_cons_self
      obtain ⟨pushed, hpush, hids, hget⟩ :=
        pushChildren_eq hlinks nextRootId children (lb :: stack) hrest
      refine ⟨pushed ++ [lb], ?_, ?_, ?_⟩
      · simp only [pushChildren, List.foldlM_cons, if_neg hc, hlb, List.append_assoc,
          List.singleton_append]
        exact hpush
      · simp [hids, hlinks.id_eq hlb, Ne.symm hc]
      · intro lb' hlb'
        rcases List.mem_append.mp hlb' with hlb' | hlb'
        · exact hget lb' hlb'
        · rw [List.mem_singleton.mp hlb', hlinks.id_eq hlb]
          exact hlb

/-- Where `TreeWalk.walk` over the cut child lists ends, the loop of `find_blocks_to_prune`
ends with the same blocks. The induction is on the fuel, one pop a step. -/
theorem findBlocksToPruneLoop_eq_walk (hlinks : t.LinksOk) (nextRootId : HashValue) :
    ∀ (fuel : Nat) (stack : List (LinkableBlock A PK Sig)) (out res : List HashValue),
      (∀ lb ∈ stack, t.getLinkableBlock lb.id = some lb) →
      walk (fun p => (t.childIds p).filter (· ≠ nextRootId)) fuel (stack.map LinkableBlock.id) out = some res →
      t.findBlocksToPruneLoop nextRootId fuel stack out = .ok res
  | _, [], out, res, _, h => by
    simp only [List.map_nil, walk, Option.some.injEq] at h
    rw [← h]
    simp only [findBlocksToPruneLoop]
  | 0, _ :: _, _, _, _, h => by simp [walk] at h
  | fuel + 1, lb :: stack, out, res, hstack, h => by
    have hlb := hstack lb List.mem_cons_self
    -- every child the block lists is in the tree
    have hfound : ∀ c ∈ lb.children, ∃ child, t.getLinkableBlock c = some child := fun c hc => by
      obtain ⟨child, hchild, -⟩ := hlinks.child_of_mem (p := lb.id) (by rwa [childIds_of_getLinkableBlock hlb])
      exact ⟨child, hchild⟩
    obtain ⟨pushed, hpush, hids, hget⟩ := pushChildren_eq hlinks nextRootId lb.children stack hfound
    rw [findBlocksToPruneLoop, hpush]
    refine findBlocksToPruneLoop_eq_walk hlinks nextRootId fuel _ _ res ?_ ?_
    · intro lb' hlb'
      rcases List.mem_append.mp hlb' with hlb' | hlb'
      · exact hget lb' hlb'
      · exact hstack lb' (List.mem_cons_of_mem lb hlb')
    · rw [List.map_cons, walk, childIds_of_getLinkableBlock hlb] at h
      rwa [List.map_append, hids]

/-- Everything below a block of the tree is in the tree. -/
theorem mem_getAllBlockId_of_reach (hlinks : t.LinksOk) {x y : HashValue}
    (hx : t.blockExists x = true) (h : t.Reach x y) : y ∈ t.getAllBlockId := by
  induction h with
  | refl =>
    obtain ⟨lb, hlb⟩ := Option.isSome_iff_exists.mp hx
    exact List.mem_map.mpr ⟨_, mem_of_getLinkableBlock hlb, rfl⟩
  | tail _ hc _ =>
    obtain ⟨child, hchild, -⟩ := hlinks.child_of_mem hc
    exact List.mem_map.mpr ⟨_, mem_of_getLinkableBlock hchild, rfl⟩

/-- `find_blocks_to_prune` on a tree whose links form a forest, for a new root below the commit
root: each block below the commit root and not below the new root, once, and never a block after
one it lists. -/
theorem findBlocksToPrune_eq_ok {nextRootId : HashValue} (hlinks : t.LinksOk)
    (hroot : t.blockExists t.commitRootId = true) (hnext : t.Reach t.commitRootId nextRootId) :
    ∃ pruned, t.findBlocksToPrune nextRootId = .ok pruned ∧ pruned.Nodup ∧
      pruned.Pairwise (fun a b => a ∉ t.childIds b) ∧
      ∀ blockId, blockId ∈ pruned ↔ t.Reach t.commitRootId blockId ∧ ¬t.Reach nextRootId blockId := by
  by_cases hsame : nextRootId = t.commitRootId
  · -- committing the commit root again prunes nothing
    refine ⟨[], by simp [findBlocksToPrune, hsame], List.nodup_nil, List.Pairwise.nil, fun blockId => ?_⟩
    rw [hsame]
    simp
  obtain ⟨root, hrootLb⟩ := Option.isSome_iff_exists.mp hroot
  have hF := hlinks.forest
  -- the new root is below the commit root, so the commit root is not below it
  have hnot : ¬t.Reach nextRootId t.commitRootId := fun h => hsame (hF.eq_of_reach_of_reach h hnext)
  -- the walk from the commit root has fuel for every block of the tree
  have hU : ∀ y, (∃ x ∈ [t.commitRootId],
      TreeWalk.Reach (fun p => (t.childIds p).filter (· ≠ nextRootId)) x y) → y ∈ t.getAllBlockId := by
    rintro y ⟨x, hx, hxy⟩
    rw [List.mem_singleton.mp hx] at hxy
    exact mem_getAllBlockId_of_reach hlinks hroot hxy.of_filter
  have hfuel : t.getAllBlockId.length ≤ 2 ^ t.idToBlock.length := by
    rw [getAllBlockId, List.length_map]
    exact (Nat.lt_two_pow_self).le
  obtain ⟨L, hwalk, hnodup, horder, hmem⟩ := (hF.filter (· ≠ nextRootId)).walk_spec _ [t.commitRootId] []
    t.getAllBlockId (List.pairwise_singleton _ _) hU hfuel
  have hmem' : ∀ blockId, blockId ∈ L ↔ t.Reach t.commitRootId blockId ∧ ¬t.Reach nextRootId blockId := by
    intro blockId
    rw [hmem]
    unfold Reach
    rw [← hF.reach_filter_iff hnot]
    simp
  refine ⟨L, ?_, hnodup, horder.imp_of_mem fun {a b} ha _ hab hab' => hab ?_, hmem'⟩
  · have hloop := findBlocksToPruneLoop_eq_walk hlinks nextRootId (2 ^ t.idToBlock.length) [root] [] L
      (by simpa [hlinks.id_eq hrootLb] using hrootLb) (by simpa [hlinks.id_eq hrootLb] using hwalk)
    simpa [findBlocksToPrune, hsame, linkableRoot, hrootLb, bind, Except.bind] using hloop
  · -- no pruned block is the new root, so no link to one was cut
    have hne : a ≠ nextRootId := fun h => ((hmem' a).mp ha).2 (h ▸ Reach.refl a)
    exact List.mem_filter.mpr ⟨hab', decide_eq_true hne⟩

/-- `find_blocks_to_prune` on a tree whose links form a forest, for a new root below the commit
root: each block below the commit root and not below the new root, once. -/
theorem findBlocksToPrune_spec (t : BlockTree A PK Sig) (nextRootId : HashValue) (hlinks : t.LinksOk)
    (hroot : t.blockExists t.commitRootId = true) (hnext : t.Reach t.commitRootId nextRootId) :
    ∃ pruned, t.findBlocksToPrune nextRootId = .ok pruned ∧ pruned.Nodup ∧
      ∀ blockId, blockId ∈ pruned ↔ t.Reach t.commitRootId blockId ∧ ¬t.Reach nextRootId blockId := by
  obtain ⟨pruned, hfind, hnodup, -, hmem⟩ := findBlocksToPrune_eq_ok hlinks hroot hnext
  exact ⟨pruned, hfind, hnodup, hmem⟩

/-- Committing the child of the two-block tree prunes its root. -/
theorem findBlocksToPrune_spec_twoBlocks :
    ∃ pruned, twoBlockTree.findBlocksToPrune 2 = .ok pruned ∧ pruned.Nodup ∧
      ∀ blockId, blockId ∈ pruned ↔
        twoBlockTree.Reach twoBlockTree.commitRootId blockId ∧ ¬twoBlockTree.Reach 2 blockId :=
  findBlocksToPrune_spec twoBlockTree 2
    ⟨by decide, by decide, by
      intro e he c hc
      rcases List.mem_pair.mp he with rfl | rfl
      · obtain rfl := List.mem_singleton.mp hc
        exact ⟨_, rfl, rfl, by decide⟩
      · cases hc⟩
    rfl (Reach.tail (Reach.refl _) (show (2 : HashValue) ∈ twoBlockTree.childIds 1 by decide))

end BlockTree

end AptosCore.Consensus
