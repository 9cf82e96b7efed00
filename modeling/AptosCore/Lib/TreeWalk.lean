import Mathlib

/-!
# Walks of a forest given by child lists

A forest is given by the list of children of each node. It is well formed (`Forest`) when no
node is listed as a child by two nodes, a child ranks above the node that lists it (so that
there is no cycle), and no node lists a child twice. The nodes below a node are those reachable
from it by child links (`Reach`).

`walk` is the depth-first walk with an explicit stack: it pops a node, pushes its children and
emits the node. On a forest it emits each node below the nodes of its stack exactly once, and a
node before its children (`walk_spec`). `reach_filter_iff` says which nodes stay below a root when the links into one
node are cut: those that are not below that node.
-/

namespace AptosCore.TreeWalk

variable {ι : Type*}

/-- One link: `c` is listed as a child of `p`. -/
def Child (children : ι → List ι) (p c : ι) : Prop := c ∈ children p

/-- `y` is below `x`: reachable from it by child links. -/
def Reach (children : ι → List ι) : ι → ι → Prop := Relation.ReflTransGen (Child children)

/-- Child lists that form a forest, with `rank` rising along every link. -/
structure Forest (children : ι → List ι) (rank : ι → ℕ) : Prop where
  parent_unique : ∀ {p q c}, c ∈ children p → c ∈ children q → p = q
  rank_lt : ∀ {p c}, c ∈ children p → rank p < rank c
  nodup : ∀ p, (children p).Nodup

variable {children : ι → List ι} {rank : ι → ℕ}

theorem Reach.refl (x : ι) : Reach children x x := Relation.ReflTransGen.refl

theorem Reach.tail {x p c : ι} (h : Reach children x p) (hc : c ∈ children p) : Reach children x c :=
  Relation.ReflTransGen.tail h hc

theorem Reach.head {p c y : ι} (hc : c ∈ children p) (h : Reach children c y) : Reach children p y :=
  Relation.ReflTransGen.head hc h

theorem Reach.trans {x y z : ι} (hxy : Reach children x y) (hyz : Reach children y z) :
    Reach children x z :=
  Relation.ReflTransGen.trans hxy hyz

/-- A node other than `x` below `x` is a child of a node below `x`. -/
theorem Reach.exists_parent {x y : ι} (h : Reach children x y) (hne : x ≠ y) :
    ∃ p, Reach children x p ∧ y ∈ children p := by
  rcases Relation.ReflTransGen.cases_tail h with rfl | ⟨p, hp, hc⟩
  · exact absurd rfl hne
  · exact ⟨p, hp, hc⟩

/-- Below a node is itself, or below one of its children. -/
theorem Reach.eq_or_child {x y : ι} (h : Reach children x y) :
    x = y ∨ ∃ c ∈ children x, Reach children c y :=
  Relation.ReflTransGen.cases_head h

/-- Child lists that keep only old links reach only what was reached. -/
theorem Reach.mono {children' : ι → List ι} (hsub : ∀ p, children' p ⊆ children p) {x y : ι}
    (h : Reach children' x y) : Reach children x y := by
  unfold Reach at h ⊢
  exact Relation.ReflTransGen.mono (fun p _ hc => hsub p hc) _ _ h

/-- Cutting links keeps a node below only what was below it. -/
theorem Reach.of_filter {q : ι → Bool} {x y : ι} (h : Reach (fun p => (children p).filter q) x y) :
    Reach children x y :=
  h.mono fun _ _ hc => (List.mem_filter.mp hc).1

/-- Adding a leaf `b`, a node with no children listed only by new links, adds only `b` below a
node. -/
theorem Reach.or_eq_of_leaf {children' : ι → List ι} {b : ι}
    (hsub : ∀ p, ∀ c ∈ children' p, c ∈ children p ∨ c = b) (hb : children' b = []) {x y : ι}
    (h : Reach children' x y) : Reach children x y ∨ y = b := by
  induction h with
  | refl => exact Or.inl (Reach.refl x)
  | tail _ hc ih =>
    rename_i z y _
    rcases ih with hxz | rfl
    · rcases hsub z y hc with hzy | rfl
      · exact Or.inl (hxz.tail hzy)
      · exact Or.inr rfl
    · -- the leaf lists no child
      have hc : y ∈ children' z := hc
      rw [hb] at hc
      cases hc

/-- Child lists that agree on every node below `x` reach from `x` what was reached. -/
theorem Reach.of_eq_below {children' : ι → List ι} {x y : ι} (h : Reach children x y)
    (heq : ∀ p, Reach children x p → children' p = children p) : Reach children' x y := by
  induction h with
  | refl => exact Reach.refl x
  | tail hxz hc ih =>
    rename_i z y
    exact ih.tail (by rw [heq z hxz]; exact hc)

namespace Forest

variable (hF : Forest children rank)
include hF

/-- Cutting links of a forest leaves a forest. -/
theorem filter (q : ι → Bool) : Forest (fun p => (children p).filter q) rank where
  parent_unique hp hq := hF.parent_unique (List.mem_filter.mp hp).1 (List.mem_filter.mp hq).1
  rank_lt hc := hF.rank_lt (List.mem_filter.mp hc).1
  nodup p := (hF.nodup p).filter q

theorem rank_le_of_reach {x y : ι} (h : Reach children x y) : rank x ≤ rank y := by
  induction h with
  | refl => exact le_rfl
  | tail _ hc ih => exact ih.trans (hF.rank_lt hc).le

theorem rank_lt_of_reach {x y : ι} (h : Reach children x y) (hne : x ≠ y) : rank x < rank y := by
  obtain ⟨p, hp, hc⟩ := h.exists_parent hne
  exact lt_of_le_of_lt (hF.rank_le_of_reach hp) (hF.rank_lt hc)

theorem eq_of_reach_of_reach {x y : ι} (hxy : Reach children x y) (hyx : Reach children y x) :
    x = y := by
  by_contra hne
  have hlt := hF.rank_lt_of_reach hxy hne
  have hle := hF.rank_le_of_reach hyx
  omega

/-- A node is not below any of its children. -/
theorem not_reach_of_mem {x c : ι} (hc : c ∈ children x) : ¬Reach children c x := fun h =>
  absurd (hF.rank_le_of_reach h) (not_le.mpr (hF.rank_lt hc))

/-- Two children of one node are not below one another. -/
theorem not_reach_of_siblings {x c c' : ι} (hc : c ∈ children x) (hc' : c' ∈ children x)
    (hne : c ≠ c') : ¬Reach children c c' := by
  intro h
  obtain ⟨p, hp, hpc'⟩ := h.exists_parent hne
  -- the only node that lists `c'` is `x`
  obtain rfl := hF.parent_unique hpc' hc'
  exact hF.not_reach_of_mem hc hp

/-- Cutting the links into `n` from below `r`: what stays below `r` is what is not below `n`. -/
theorem reach_filter_iff [DecidableEq ι] {r n y : ι} (hn : ¬Reach children n r) :
    Reach (fun p => (children p).filter (· ≠ n)) r y ↔ Reach children r y ∧ ¬Reach children n y := by
  constructor
  · intro h
    induction h with
    | refl => exact ⟨Reach.refl r, hn⟩
    | tail _ hc ih =>
      rename_i z y _
      have hzy : y ∈ children z := (List.mem_filter.mp hc).1
      have hyn : y ≠ n := of_decide_eq_true (List.mem_filter.mp hc).2
      refine ⟨ih.1.tail hzy, fun hny => ?_⟩
      -- a path from `n` to `y` goes through the one node that lists `y`
      obtain ⟨p, hp, hpy⟩ := hny.exists_parent hyn.symm
      obtain rfl := hF.parent_unique hpy hzy
      exact ih.2 hp
  · rintro ⟨h, hny⟩
    induction h with
    | refl => exact Reach.refl r
    | tail hrz hc ih =>
      rename_i z y
      have hyn : y ≠ n := fun hy => hny (hy ▸ Reach.refl y)
      exact (ih fun hnz => hny (hnz.tail hc)).tail (List.mem_filter.mpr ⟨hc, decide_eq_true hyn⟩)

end Forest

/-! ## The walk with a stack -/

/-- The depth-first walk with an explicit stack, its top first: pop a node, push its children
(the last one on top) and emit the node; `none` when the fuel runs out first. -/
def walk (children : ι → List ι) : ℕ → List ι → List ι → Option (List ι)
  | _, [], out => some out
  | 0, _ :: _, _ => none
  | fuel + 1, x :: stack, out => walk children fuel ((children x).reverse ++ stack) (out ++ [x])

/-- Nodes of which none is below another. -/
def Apart (children : ι → List ι) (stack : List ι) : Prop :=
  stack.Pairwise fun a b => ¬Reach children a b ∧ ¬Reach children b a

/-- What is below the stack after a pop and push is what was below it, the popped node apart. -/
theorem reach_push_iff {x y : ι} {stack : List ι} :
    (y = x ∨ ∃ s ∈ (children x).reverse ++ stack, Reach children s y) ↔
      ∃ s ∈ x :: stack, Reach children s y := by
  constructor
  · rintro (rfl | ⟨s, hs, hsy⟩)
    · exact ⟨y, List.mem_cons_self, Reach.refl y⟩
    · rcases List.mem_append.mp hs with hs | hs
      · exact ⟨x, List.mem_cons_self, Reach.head (List.mem_reverse.mp hs) hsy⟩
      · exact ⟨s, List.mem_cons_of_mem x hs, hsy⟩
  · rintro ⟨s, hs, hsy⟩
    rcases List.mem_cons.mp hs with rfl | hs
    · rcases hsy.eq_or_child with rfl | ⟨c, hc, hcy⟩
      · exact Or.inl rfl
      · exact Or.inr ⟨c, List.mem_append_left _ (List.mem_reverse.mpr hc), hcy⟩
    · exact Or.inr ⟨s, List.mem_append_right _ hs, hsy⟩

namespace Forest

variable (hF : Forest children rank)
include hF

/-- Popping a node and pushing its children keeps the stack apart. -/
theorem apart_push {x : ι} {stack : List ι} (h : Apart children (x :: stack)) :
    Apart children ((children x).reverse ++ stack) := by
  have hx := (List.pairwise_cons.mp h).1
  refine List.pairwise_append.mpr ⟨?_, h.of_cons, ?_⟩
  · -- siblings: none is below another
    refine List.pairwise_reverse.mpr ((hF.nodup x).imp_of_mem ?_)
    intro a b ha hb hab
    exact ⟨hF.not_reach_of_siblings hb ha hab.symm, hF.not_reach_of_siblings ha hb hab⟩
  · intro c hc r hr
    have hc : c ∈ children x := List.mem_reverse.mp hc
    refine ⟨fun hcr => (hx r hr).1 (Reach.head hc hcr), fun hrc => ?_⟩
    by_cases hrc' : r = c
    · exact (hx r hr).1 (hrc' ▸ Reach.head hc (Reach.refl c))
    · obtain ⟨p, hp, hpc⟩ := hrc.exists_parent hrc'
      obtain rfl := hF.parent_unique hpc hc
      exact (hx r hr).2 hp

/-- A node of an apart stack is below none of the nodes the walk pushes in its place. -/
theorem not_reach_push {x : ι} {stack : List ι} (h : Apart children (x :: stack)) :
    ∀ s ∈ (children x).reverse ++ stack, ¬Reach children s x := by
  intro s hs
  rcases List.mem_append.mp hs with hs | hs
  · exact hF.not_reach_of_mem (List.mem_reverse.mp hs)
  · exact (List.rel_of_pairwise_cons h hs).2

/-- On a forest, a walk from an apart stack with fuel for every node below it emits each of
those nodes once, after what it had emitted, and never a node after one of its children. The induction is on the fuel, one pop a step;
`U` holds the nodes still to come. -/
theorem walk_spec [DecidableEq ι] :
    ∀ (fuel : ℕ) (stack out U : List ι), Apart children stack →
      (∀ y, (∃ x ∈ stack, Reach children x y) → y ∈ U) → U.length ≤ fuel →
      ∃ L, walk children fuel stack out = some (out ++ L) ∧ L.Nodup ∧
        L.Pairwise (fun a b => a ∉ children b) ∧ ∀ y, y ∈ L ↔ ∃ x ∈ stack, Reach children x y
  | _, [], out, _, _, _, _ => ⟨[], by simp [walk]⟩
  | 0, x :: _, _, U, _, hU, hfuel => by
    have hx : x ∈ U := hU x ⟨x, List.mem_cons_self, Reach.refl x⟩
    have := List.length_pos_of_mem hx
    omega
  | fuel + 1, x :: stack, out, U, hapart, hU, hfuel => by
    have hx : x ∈ U := hU x ⟨x, List.mem_cons_self, Reach.refl x⟩
    -- the popped node is below nothing left on the new stack
    have hnot := hF.not_reach_push hapart
    have hU' : ∀ y, (∃ s ∈ (children x).reverse ++ stack, Reach children s y) → y ∈ U.erase x := by
      rintro y ⟨s, hs, hsy⟩
      have hyx : y ≠ x := fun hyx => hnot s hs (hyx ▸ hsy)
      exact (List.mem_erase_of_ne hyx).mpr (hU y (reach_push_iff.mp (Or.inr ⟨s, hs, hsy⟩)))
    have hlen : (U.erase x).length ≤ fuel := by
      rw [List.length_erase_of_mem hx]
      omega
    obtain ⟨L, hwalk, hnodup, horder, hmem⟩ :=
      walk_spec fuel _ (out ++ [x]) (U.erase x) (hF.apart_push hapart) hU' hlen
    refine ⟨x :: L, ?_, ?_, ?_, fun y => ?_⟩
    · rw [walk, hwalk, List.append_assoc, List.singleton_append]
    · exact List.nodup_cons.mpr ⟨fun hxL => by
        obtain ⟨s, hs, hsx⟩ := (hmem x).mp hxL
        exact hnot s hs hsx, hnodup⟩
    · -- a node emitted later is below the new stack, so it does not list the popped node
      refine List.pairwise_cons.mpr ⟨fun b hb hxb => ?_, horder⟩
      obtain ⟨s, hs, hsb⟩ := (hmem b).mp hb
      exact hnot s hs (hsb.tail hxb)
    · rw [List.mem_cons, hmem]
      exact reach_push_iff

end Forest

end AptosCore.TreeWalk
