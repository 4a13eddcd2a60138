import Mathlib.Algebra.BigOperators.Group.Finset.Basic
import Mathlib.Data.Set.Card
import Mathlib.Logic.Relation

/-!
# Worklists with a budget

Two ways to explore a graph from a stack of nodes, each pop costing one unit of a budget. The first
marks a node when it is first met, so that no node is pushed twice; its edges say whether to follow
the target or only to mark it, and what decides is the first edge by which a node is met. With a
budget for the reachable nodes it is complete when every target has an edge from a node that is sure
to be visited, whatever the order. The second marks a node when it is popped. With a budget for the
root and every edge of a reachable node it visits each reachable node once.
-/

namespace UfsForensic.Worklist

variable {α : Type*}

/-- Mark the targets of one node, pushing those that are new and to be followed. -/
def mark [DecidableEq α] : List (α × Bool) → List α → List α → List α × List α
  | [], seen, stack => (seen, stack)
  | (y, follow) :: targets, seen, stack =>
    if y ∈ seen then mark targets seen stack
    else mark targets (seen ++ [y]) (if follow then y :: stack else stack)

/-- Explore from `stack` until it is empty or the budget is spent; the result is what is marked. -/
def run [DecidableEq α] (succ : α → List (α × Bool)) : ℕ → List α → List α → List α
  | _, seen, [] => seen
  | 0, seen, _ :: _ => seen
  | budget + 1, seen, x :: stack =>
    let (seen, stack) := mark (succ x) seen stack
    run succ budget seen stack

/-- The nodes that following leads to from `root`. -/
inductive Reach (succ : α → List (α × Bool)) (root : α) : α → Prop
  | root : Reach succ root root
  | step {x y : α} (hx : Reach succ root x) (hy : (y, true) ∈ succ x) : Reach succ root y

/-- A target of a node that following leads to. -/
def Target (succ : α → List (α × Bool)) (root y : α) : Prop :=
  ∃ x b, Reach succ root x ∧ (y, b) ∈ succ x

/-- No node but the root is a target both to be followed and not to be followed. -/
def Consistent (succ : α → List (α × Bool)) (root : α) : Prop :=
  ∀ x x' y, Reach succ root x → Reach succ root x' → (y, true) ∈ succ x → (y, false) ∈ succ x' →
    y = root

/-- What holds between two visits: `done` are the nodes visited so far. -/
structure Inv (succ : α → List (α × Bool)) (root : α) (done seen stack : List α) : Prop where
  root_mem : root ∈ seen
  nodup : (done ++ stack).Nodup
  reach : ∀ x ∈ done ++ stack, Reach succ root x
  marked : ∀ x ∈ done ++ stack, x ∈ seen
  sound : ∀ y ∈ seen, y = root ∨ Target succ root y
  pending : ∀ y ∈ seen, Reach succ root y → y ∈ done ++ stack

variable {succ : α → List (α × Bool)} {root : α} {done seen stack : List α}

theorem Reach.followed {y : α} (h : Reach succ root y) :
    y = root ∨ ∃ x, Reach succ root x ∧ (y, true) ∈ succ x := by
  cases h with
  | root => exact Or.inl rfl
  | step hx hy => exact Or.inr ⟨_, hx, hy⟩

theorem reach_of_mem_singleton : ∀ x ∈ [root], Reach succ root x := by
  intro x hx
  rw [List.mem_singleton.mp hx]
  exact .root

/-- The graph with every edge followed or not by its target alone. -/
def relabel (f : α → Bool) (succ : α → List (α × Bool)) (x : α) : List (α × Bool) :=
  (succ x).map fun t => (t.1, f t.1)

theorem mem_relabel_iff {f : α → Bool} {x y : α} {b : Bool} :
    (y, b) ∈ relabel f succ x ↔ f y = b ∧ ∃ b', (y, b') ∈ succ x := by
  unfold relabel
  rw [List.mem_map]
  constructor
  · rintro ⟨⟨y', b'⟩, hy, heq⟩
    obtain ⟨rfl, rfl⟩ := Prod.mk.inj heq
    exact ⟨rfl, b', hy⟩
  · rintro ⟨rfl, b', hy⟩
    exact ⟨(y, b'), hy, rfl⟩

theorem consistent_relabel (f : α → Bool) (succ : α → List (α × Bool)) (root : α) :
    Consistent (relabel f succ) root := by
  intro x x' y _ _ htrue hfalse
  rw [mem_relabel_iff] at htrue hfalse
  exact nomatch htrue.1.symm.trans hfalse.1

theorem reach_iff_reflTransGen {y : α} :
    Reach succ root y ↔ Relation.ReflTransGen (fun x y => (y, true) ∈ succ x) root y := by
  constructor
  · intro h
    induction h with
    | root => exact .refl
    | step _ hy ih => exact ih.tail hy
  · intro h
    induction h with
    | refl => exact .root
    | tail _ hy ih => exact .step ih hy

/-- Marking one new target keeps the invariant. -/
theorem Inv.push (hcons : Consistent succ root) (h : Inv succ root done seen stack) {x y : α}
    {follow : Bool} (hx : Reach succ root x) (hy : (y, follow) ∈ succ x) (hnew : y ∉ seen) :
    Inv succ root done (seen ++ [y]) (if follow then y :: stack else stack) := by
  have hsound : ∀ z ∈ seen ++ [y], z = root ∨ Target succ root z := by
    intro z hz
    rcases List.mem_append.mp hz with hz | hz
    · exact h.sound z hz
    · rw [List.mem_singleton.mp hz]
      exact Or.inr ⟨x, follow, hx, hy⟩
  have hroot : root ∈ seen ++ [y] := List.mem_append_left _ h.root_mem
  have hout : y ∉ done ++ stack := fun hc => hnew (h.marked y hc)
  cases follow with
  | true =>
    have hmem (z : α) : z ∈ done ++ y :: stack ↔ z = y ∨ z ∈ done ++ stack := by
      simp only [List.mem_append, List.mem_cons]
      tauto
    constructor
    · exact hroot
    · exact (List.nodup_middle.mpr (List.nodup_cons.mpr ⟨hout, h.nodup⟩))
    · intro z hz
      rcases (hmem z).mp hz with rfl | hz
      · exact .step hx hy
      · exact h.reach z hz
    · intro z hz
      rcases (hmem z).mp hz with rfl | hz
      · exact List.mem_append_right _ (List.mem_singleton_self _)
      · exact List.mem_append_left _ (h.marked z hz)
    · exact hsound
    · intro z hz hreach
      rcases List.mem_append.mp hz with hz | hz
      · exact (hmem z).mpr (Or.inr (h.pending z hz hreach))
      · exact (hmem z).mpr (Or.inl (List.mem_singleton.mp hz))
  | false =>
    constructor
    · exact hroot
    · exact h.nodup
    · exact h.reach
    · intro z hz
      exact List.mem_append_left _ (h.marked z hz)
    · exact hsound
    · intro z hz hreach
      rcases List.mem_append.mp hz with hz | hz
      · exact h.pending z hz hreach
      · -- a node to be followed is never first met as one that is not
        rw [List.mem_singleton.mp hz] at hreach
        exfalso
        rcases hreach.followed with hyr | ⟨x', hx', hy'⟩
        · exact hnew (hyr ▸ h.root_mem)
        · exact hnew (hcons x' x y hx' hx hy' hy ▸ h.root_mem)

variable [DecidableEq α]

/-- Marking keeps the invariant and the marks, and marks every target. -/
theorem Inv.mark (hcons : Consistent succ root) {x : α} (hx : Reach succ root x)
    {targets : List (α × Bool)} (htargets : ∀ e ∈ targets, e ∈ succ x)
    (h : Inv succ root done seen stack) :
    Inv succ root done (mark targets seen stack).1 (mark targets seen stack).2 ∧
      (∀ y ∈ seen, y ∈ (Worklist.mark targets seen stack).1) ∧
      ∀ e ∈ targets, e.1 ∈ (Worklist.mark targets seen stack).1 := by
  induction targets generalizing seen stack with
  | nil => exact ⟨h, fun y hy => hy, fun e he => absurd he List.not_mem_nil⟩
  | cons e targets ih =>
    obtain ⟨y, follow⟩ := e
    have hrest : ∀ e ∈ targets, e ∈ succ x := fun e he => htargets e (List.mem_cons_of_mem _ he)
    rw [Worklist.mark]
    by_cases hy : y ∈ seen
    · rw [if_pos hy]
      obtain ⟨hinv, hkeep, hall⟩ := ih hrest h
      refine ⟨hinv, hkeep, fun e he => ?_⟩
      rcases List.mem_cons.mp he with rfl | he
      · exact hkeep y hy
      · exact hall e he
    · rw [if_neg hy]
      obtain ⟨hinv, hkeep, hall⟩ :=
        ih hrest (h.push hcons hx (htargets _ List.mem_cons_self) hy)
      refine ⟨hinv, fun z hz => hkeep z (List.mem_append_left _ hz), fun e he => ?_⟩
      rcases List.mem_cons.mp he with rfl | he
      · exact hkeep y (List.mem_append_right _ (List.mem_singleton_self _))
      · exact hall e he

def Closed (succ : α → List (α × Bool)) (done seen : List α) : Prop :=
  ∀ x ∈ done, ∀ e ∈ succ x, e.1 ∈ seen

/-- With a budget for every reachable node the exploration ends with an empty stack. -/
theorem run_inv (hcons : Consistent succ root) {budget : ℕ}
    (hbudget : {x | Reach succ root x}.encard ≤ budget + done.length)
    (h : Inv succ root done seen stack) (hclosed : Closed succ done seen) :
    ∃ done', Inv succ root done' (run succ budget seen stack) [] ∧
      Closed succ done' (run succ budget seen stack) := by
  induction budget generalizing done seen stack with
  | zero =>
    cases stack with
    | nil => exact ⟨done, h, hclosed⟩
    | cons x stack =>
      -- the nodes on record would outnumber the reachable ones
      exfalso
      have hsub : ((done ++ x :: stack).toFinset : Set α) ⊆ {x | Reach succ root x} := by
        intro z hz
        exact h.reach z (List.mem_toFinset.mp (Finset.mem_coe.mp hz))
      have hcard := Set.encard_le_encard hsub
      rw [Set.encard_coe_eq_coe_finsetCard, List.toFinset_card_of_nodup h.nodup] at hcard
      have hle := hcard.trans hbudget
      rw [Nat.cast_zero, zero_add, Nat.cast_le, List.length_append, List.length_cons] at hle
      omega
  | succ budget ih =>
    cases stack with
    | nil => exact ⟨done, h, hclosed⟩
    | cons x stack =>
      have hx : Reach succ root x := h.reach x (by simp)
      have hpop : Inv succ root (done ++ [x]) seen stack := by
        have heq : done ++ [x] ++ stack = done ++ x :: stack := by simp
        exact ⟨h.root_mem, heq ▸ h.nodup, heq ▸ h.reach, heq ▸ h.marked, h.sound,
          heq ▸ h.pending⟩
      obtain ⟨hinv, hkeep, hall⟩ := hpop.mark hcons hx (fun e he => he)
      rw [run]
      refine ih ?_ hinv ?_
      · rw [List.length_append, List.length_singleton]
        push_cast at hbudget ⊢
        rwa [add_right_comm, add_assoc] at hbudget
      · intro z hz e he
        rcases List.mem_append.mp hz with hz | hz
        · exact hkeep _ (hclosed z hz e he)
        · rw [List.mem_singleton.mp hz] at he
          exact hall e he

/-- From the root, exactly the root and the targets of the reachable nodes are marked. -/
theorem mem_run_iff (hcons : Consistent succ root) {budget : ℕ}
    (hbudget : {x | Reach succ root x}.encard ≤ budget) {y : α} :
    y ∈ run succ budget [root] [root] ↔ y = root ∨ Target succ root y := by
  have hstart : Inv succ root [] [root] [root] := by
    constructor
    · exact List.mem_singleton_self _
    · exact List.nodup_singleton root
    · intro x hx
      rw [List.mem_singleton.mp hx]
      exact .root
    · exact fun x hx => hx
    · intro x hx
      exact Or.inl (List.mem_singleton.mp hx)
    · exact fun x hx _ => hx
  have hempty : Closed succ [] [root] := fun x hx => absurd hx List.not_mem_nil
  obtain ⟨done, hinv, hclosed⟩ := run_inv hcons (by simpa using hbudget) hstart hempty
  have hdone : ∀ x, Reach succ root x → x ∈ done := by
    intro x hx
    induction hx with
    | root => simpa using hinv.pending root hinv.root_mem .root
    | step hx hy ih => simpa using hinv.pending _ (hclosed _ ih _ hy) (.step hx hy)
  constructor
  · exact hinv.sound y
  · rintro (rfl | ⟨x, b, hx, hy⟩)
    · exact hinv.root_mem
    · exact hclosed x (hdone x hx) _ hy

/-- The targets of one node that are not marked yet, each once, as they are first met. -/
def fresh : List (α × Bool) → List α → List (α × Bool)
  | [], _ => []
  | (y, follow) :: targets, seen =>
    if y ∈ seen then fresh targets seen else (y, follow) :: fresh targets (seen ++ [y])

/-- The nodes that `run` marks, in order, each with the kind of edge by which it is first met. -/
def firstMet (succ : α → List (α × Bool)) : ℕ → List α → List α → List (α × Bool)
  | _, _, [] => []
  | 0, _, _ :: _ => []
  | budget + 1, seen, x :: stack =>
    let new := fresh (succ x) seen
    new ++ firstMet succ budget (seen ++ new.map Prod.fst)
      (((new.filter Prod.snd).map Prod.fst).reverse ++ stack)

theorem mark_eq (targets : List (α × Bool)) (seen stack : List α) :
    mark targets seen stack = (seen ++ (fresh targets seen).map Prod.fst,
      (((fresh targets seen).filter Prod.snd).map Prod.fst).reverse ++ stack) := by
  induction targets generalizing seen stack with
  | nil => simp [mark, fresh]
  | cons t targets ih =>
    obtain ⟨y, follow⟩ := t
    rw [mark, fresh]
    by_cases hy : y ∈ seen
    · rw [if_pos hy, if_pos hy, ih]
    · rw [if_neg hy, if_neg hy, ih]
      cases follow <;> simp

theorem run_eq (succ : α → List (α × Bool)) (budget : ℕ) (seen stack : List α) :
    run succ budget seen stack = seen ++ (firstMet succ budget seen stack).map Prod.fst := by
  induction budget generalizing seen stack with
  | zero => cases stack <;> simp [run, firstMet]
  | succ budget ih =>
    cases stack with
    | nil => simp [run, firstMet]
    | cons x stack =>
      rw [run, firstMet, mark_eq]
      simp only [ih, List.map_append, List.append_assoc]

theorem mem_of_mem_fresh {targets : List (α × Bool)} {t : α × Bool} (h : t ∈ fresh targets seen) :
    t ∈ targets := by
  induction targets generalizing seen with
  | nil => exact h
  | cons e targets ih =>
    rw [fresh] at h
    split_ifs at h with he
    · exact List.mem_cons_of_mem _ (ih h)
    · rcases List.mem_cons.mp h with rfl | h
      · exact List.mem_cons_self
      · exact List.mem_cons_of_mem _ (ih h)

theorem nodup_seen_fresh (targets : List (α × Bool)) (h : seen.Nodup) :
    (seen ++ (fresh targets seen).map Prod.fst).Nodup := by
  induction targets generalizing seen with
  | nil => simpa [fresh] using h
  | cons e targets ih =>
    rw [fresh]
    split_ifs with he
    · exact ih h
    · have hone : (seen ++ [e.1]).Nodup := by
        rw [List.nodup_append_comm]
        exact List.nodup_cons.mpr ⟨he, h⟩
      simpa using ih hone

theorem nodup_run (succ : α → List (α × Bool)) (budget : ℕ) (stack : List α) (h : seen.Nodup) :
    (run succ budget seen stack).Nodup := by
  induction budget generalizing seen stack with
  | zero => cases stack <;> exact h
  | succ budget ih =>
    cases stack with
    | nil => exact h
    | cons x stack =>
      rw [run, mark_eq]
      exact ih _ (nodup_seen_fresh _ h)

theorem target_of_mem_firstMet {budget : ℕ} (hstack : ∀ x ∈ stack, Reach succ root x) {t : α × Bool}
    (ht : t ∈ firstMet succ budget seen stack) : ∃ x, Reach succ root x ∧ t ∈ succ x := by
  induction budget generalizing seen stack with
  | zero => cases stack <;> exact absurd ht List.not_mem_nil
  | succ budget ih =>
    cases stack with
    | nil => exact absurd ht List.not_mem_nil
    | cons x stack =>
      have hx : Reach succ root x := hstack x List.mem_cons_self
      rw [firstMet] at ht
      rcases List.mem_append.mp ht with ht | ht
      · exact ⟨x, hx, mem_of_mem_fresh ht⟩
      · refine ih (fun z hz => ?_) ht
        rcases List.mem_append.mp hz with hz | hz
        · obtain ⟨⟨y, follow⟩, hy, rfl⟩ := List.mem_map.mp (List.mem_reverse.mp hz)
          obtain ⟨hy, rfl⟩ := List.mem_filter.mp hy
          exact .step hx (mem_of_mem_fresh hy)
        · exact hstack z (List.mem_cons_of_mem _ hz)

theorem fresh_relabel {f : α → Bool} {targets : List (α × Bool)}
    (h : ∀ t ∈ fresh targets seen, f t.1 = t.2) :
    fresh (targets.map fun t => (t.1, f t.1)) seen = fresh targets seen := by
  induction targets generalizing seen with
  | nil => rfl
  | cons e targets ih =>
    obtain ⟨y, follow⟩ := e
    rw [List.map_cons, fresh, fresh]
    rw [fresh] at h
    by_cases hy : y ∈ seen
    · rw [if_pos hy] at h ⊢
      rw [if_pos hy]
      exact ih h
    · rw [if_neg hy] at h ⊢
      rw [if_neg hy, ih fun t ht => h t (List.mem_cons_of_mem _ ht), h _ List.mem_cons_self]

theorem firstMet_relabel {f : α → Bool} {budget : ℕ}
    (h : ∀ t ∈ firstMet succ budget seen stack, f t.1 = t.2) :
    firstMet (relabel f succ) budget seen stack = firstMet succ budget seen stack := by
  induction budget generalizing seen stack with
  | zero => cases stack <;> rfl
  | succ budget ih =>
    cases stack with
    | nil => rfl
    | cons x stack =>
      rw [firstMet] at h
      have hfresh : fresh (relabel f succ x) seen = fresh (succ x) seen :=
        fresh_relabel fun t ht => h t (List.mem_append_left _ ht)
      rw [firstMet, firstMet, hfresh]
      exact congrArg _ (ih fun t ht => h t (List.mem_append_right _ ht))

/-- The nodes visited from the root: the root, and the nodes first met by an edge to follow. -/
def Visited (succ : α → List (α × Bool)) (budget : ℕ) (root x : α) : Prop :=
  x = root ∨ (x, true) ∈ firstMet succ budget [root] [root]

def followed (succ : α → List (α × Bool)) (budget : ℕ) (root y : α) : Bool :=
  decide ((y, true) ∈ firstMet succ budget [root] [root])

theorem Visited.reach {budget : ℕ} {x : α} (h : Visited succ budget root x) :
    Reach succ root x := by
  rcases h with rfl | h
  · exact .root
  · obtain ⟨x', hx', hy⟩ := target_of_mem_firstMet reach_of_mem_singleton h
    exact .step hx' hy

/-- A node has one first meeting. -/
theorem followed_eq {budget : ℕ} :
    ∀ t ∈ firstMet succ budget [root] [root], followed succ budget root t.1 = t.2 := by
  have hnodup := nodup_run succ budget [root] (List.nodup_singleton root)
  rw [run_eq] at hnodup
  rintro ⟨y, follow⟩ ht
  cases follow with
  | true => exact decide_eq_true ht
  | false =>
    refine decide_eq_false fun htrue => ?_
    have heq := List.inj_on_of_nodup_map hnodup.of_append_right ht htrue rfl
    exact nomatch congrArg Prod.snd heq

theorem reach_relabel_iff {budget : ℕ} {x : α} :
    Reach (relabel (followed succ budget root) succ) root x ↔ Visited succ budget root x := by
  constructor
  · intro hx
    rcases hx.followed with rfl | ⟨x', -, hy⟩
    · exact Or.inl rfl
    · exact Or.inr (of_decide_eq_true (mem_relabel_iff.mp hy).1)
  · rintro (rfl | hx)
    · exact .root
    · rw [← firstMet_relabel followed_eq] at hx
      obtain ⟨x', hx', hy⟩ := target_of_mem_firstMet reach_of_mem_singleton hx
      exact .step hx' hy

theorem mem_run_iff_met {budget : ℕ} {y : α} : y ∈ run succ budget [root] [root] ↔
    Visited succ budget root y ∨ (y, false) ∈ firstMet succ budget [root] [root] := by
  rw [run_eq, List.singleton_append, List.mem_cons, List.mem_map]
  constructor
  · rintro (rfl | ⟨⟨y, follow⟩, hmet, rfl⟩)
    · exact Or.inl (Or.inl rfl)
    · cases follow with
      | true => exact Or.inl (Or.inr hmet)
      | false => exact Or.inr hmet
  · rintro ((rfl | hmet) | hmet)
    · exact Or.inl rfl
    · exact Or.inr ⟨_, hmet, rfl⟩
    · exact Or.inr ⟨_, hmet, rfl⟩

/-- With a budget for every reachable node, exactly the root and the targets of the visited nodes
are marked. -/
theorem mem_run_iff_visited {budget : ℕ} (hbudget : {x | Reach succ root x}.encard ≤ budget)
    {y : α} : y ∈ run succ budget [root] [root] ↔
      y = root ∨ ∃ x b, Visited succ budget root x ∧ (y, b) ∈ succ x := by
  have hrun : run (relabel (followed succ budget root) succ) budget [root] [root] =
      run succ budget [root] [root] := by
    rw [run_eq, run_eq, firstMet_relabel followed_eq]
  have hsmall : {x | Reach (relabel (followed succ budget root) succ) root x}.encard ≤ budget :=
    (Set.encard_le_encard fun _ hx => (reach_relabel_iff.mp hx).reach).trans hbudget
  rw [← hrun, mem_run_iff (consistent_relabel _ _ _) hsmall]
  refine or_congr_right ?_
  constructor
  · rintro ⟨x, b, hx, hy⟩
    obtain ⟨-, b', hy⟩ := mem_relabel_iff.mp hy
    exact ⟨x, b', reach_relabel_iff.mp hx, hy⟩
  · rintro ⟨x, b, hx, hy⟩
    exact ⟨x, _, reach_relabel_iff.mpr hx, mem_relabel_iff.mpr ⟨rfl, b, hy⟩⟩

/-- Whether the first edge of a node to `y`, if it has one, is to be followed. -/
def firstEdge (targets : List (α × Bool)) (y : α) : Option Bool :=
  (targets.find? fun t => t.1 = y).map Prod.snd

/-- The nodes that following leads to from the root through nodes that have no edge to `y`: only
these can be visited before `y` is met. -/
inductive ReachBefore (succ : α → List (α × Bool)) (root y : α) : α → Prop
  | root : ReachBefore succ root y root
  | step {x z : α} (hx : ReachBefore succ root y x) (hnone : firstEdge (succ x) y = none)
      (hz : (z, true) ∈ succ x) : ReachBefore succ root y z

/-- The nodes that are visited in whatever order the exploration takes: every first edge by which
such a node can be met is to be followed. -/
inductive Sure (succ : α → List (α × Bool)) (root : α) : α → Prop
  | root : Sure succ root root
  | step {x y : α} {b : Bool} (hx : Sure succ root x) (hy : (y, b) ∈ succ x)
      (hfirst : ∀ z, ReachBefore succ root y z → firstEdge (succ z) y ≠ some false) :
      Sure succ root y

/-- The nodes that are visited in some order: the root, and those that can be met first by an edge
to follow. -/
def Possible (succ : α → List (α × Bool)) (root y : α) : Prop :=
  y = root ∨ ∃ z, ReachBefore succ root y z ∧ firstEdge (succ z) y = some true

theorem firstEdge_cons (t : α × Bool) (targets : List (α × Bool)) (y : α) :
    firstEdge (t :: targets) y = if t.1 = y then some t.2 else firstEdge targets y := by
  unfold firstEdge
  by_cases h : t.1 = y
  · rw [List.find?_cons_of_pos (by simpa using h), if_pos h, Option.map_some]
  · rw [List.find?_cons_of_neg (by simpa using h), if_neg h]

theorem firstEdge_eq_none_iff {targets : List (α × Bool)} {y : α} :
    firstEdge targets y = none ↔ ∀ t ∈ targets, t.1 ≠ y := by
  unfold firstEdge
  rw [Option.map_eq_none_iff, List.find?_eq_none]
  simp only [decide_eq_true_eq, ne_eq]

theorem mem_of_firstEdge {targets : List (α × Bool)} {y : α} {b : Bool}
    (h : firstEdge targets y = some b) : (y, b) ∈ targets := by
  obtain ⟨⟨y', b'⟩, hfind, rfl⟩ := Option.map_eq_some_iff.mp h
  have hy : y' = y := by simpa using List.find?_some hfind
  exact hy ▸ List.mem_of_find?_eq_some hfind

theorem ReachBefore.reach {x y : α} (h : ReachBefore succ root y x) : Reach succ root x := by
  induction h with
  | root => exact .root
  | step _ _ hz ih => exact .step ih hz

theorem ReachBefore.eq_root {x y : α} {b : Bool} (h : ReachBefore succ root y x)
    (hroot : firstEdge (succ root) y = some b) : x = root := by
  induction h with
  | root => rfl
  | step _ hnone _ ih =>
    rw [ih, hroot] at hnone
    cases hnone

theorem firstEdge_of_mem_fresh {targets : List (α × Bool)} {y : α} {b : Bool}
    (h : (y, b) ∈ fresh targets seen) : y ∉ seen ∧ firstEdge targets y = some b := by
  induction targets generalizing seen with
  | nil => exact absurd h List.not_mem_nil
  | cons t targets ih =>
    obtain ⟨z, follow⟩ := t
    rw [fresh] at h
    rw [firstEdge_cons]
    by_cases hz : z ∈ seen
    · rw [if_pos hz] at h
      obtain ⟨hy, hfirst⟩ := ih h
      have hne : z ≠ y := fun heq => hy (heq ▸ hz)
      exact ⟨hy, (if_neg hne).trans hfirst⟩
    · rw [if_neg hz] at h
      rcases List.mem_cons.mp h with heq | h
      · obtain ⟨rfl, rfl⟩ := Prod.mk.inj heq
        exact ⟨hz, if_pos rfl⟩
      · obtain ⟨hy, hfirst⟩ := ih h
        have hne : z ≠ y := by
          rintro rfl
          exact hy (List.mem_append_right _ (List.mem_singleton_self _))
        exact ⟨fun hc => hy (List.mem_append_left _ hc), (if_neg hne).trans hfirst⟩

theorem mem_seen_of_target {targets : List (α × Bool)} {t : α × Bool} (h : t ∈ targets)
    (seen : List α) : t.1 ∈ seen ++ (fresh targets seen).map Prod.fst := by
  induction targets generalizing seen with
  | nil => exact absurd h List.not_mem_nil
  | cons e targets ih =>
    rw [fresh]
    by_cases he : e.1 ∈ seen
    · rw [if_pos he]
      rcases List.mem_cons.mp h with rfl | h
      · exact List.mem_append_left _ he
      · exact ih h seen
    · rw [if_neg he, List.map_cons]
      rcases List.mem_cons.mp h with rfl | h
      · exact List.mem_append_right _ List.mem_cons_self
      · simpa using ih h (seen ++ [e.1])

theorem not_mem_of_mem_firstMet {budget : ℕ} {t : α × Bool}
    (h : t ∈ firstMet succ budget seen stack) : t.1 ∉ seen := by
  induction budget generalizing seen stack with
  | zero => cases stack <;> exact absurd h List.not_mem_nil
  | succ budget ih =>
    cases stack with
    | nil => exact absurd h List.not_mem_nil
    | cons x stack =>
      rw [firstMet] at h
      rcases List.mem_append.mp h with h | h
      · exact (firstEdge_of_mem_fresh h).1
      · exact fun hc => ih h (List.mem_append_left _ hc)

/-- The edge by which a node is first met is the first one to it of a node that can be visited
before. -/
theorem exists_firstEdge_of_mem_firstMet {budget : ℕ} {y : α} {b : Bool}
    (hstack : ∀ x ∈ stack, ReachBefore succ root y x)
    (h : (y, b) ∈ firstMet succ budget seen stack) :
    ∃ x, ReachBefore succ root y x ∧ firstEdge (succ x) y = some b := by
  induction budget generalizing seen stack with
  | zero => cases stack <;> exact absurd h List.not_mem_nil
  | succ budget ih =>
    cases stack with
    | nil => exact absurd h List.not_mem_nil
    | cons x stack =>
      have hx : ReachBefore succ root y x := hstack x List.mem_cons_self
      rw [firstMet] at h
      rcases List.mem_append.mp h with h | h
      · exact ⟨x, hx, (firstEdge_of_mem_fresh h).2⟩
      · -- the visit of `x` did not meet `y`, so `x` has no edge to it
        have hnone : firstEdge (succ x) y = none := by
          refine firstEdge_eq_none_iff.mpr fun t ht heq => ?_
          have hseen := mem_seen_of_target ht seen
          rw [heq] at hseen
          exact not_mem_of_mem_firstMet h hseen
        refine ih (fun z hz => ?_) h
        rcases List.mem_append.mp hz with hz | hz
        · obtain ⟨⟨z', follow⟩, hz', rfl⟩ := List.mem_map.mp (List.mem_reverse.mp hz)
          obtain ⟨hz', rfl⟩ := List.mem_filter.mp hz'
          exact .step hx hnone (mem_of_mem_fresh hz')
        · exact hstack z (List.mem_cons_of_mem _ hz)

theorem firstMet_from_root {budget : ℕ} {y : α} {b : Bool}
    (h : (y, b) ∈ firstMet succ budget [root] [root]) :
    ∃ x, ReachBefore succ root y x ∧ firstEdge (succ x) y = some b := by
  refine exists_firstEdge_of_mem_firstMet (fun x hx => ?_) h
  rw [List.mem_singleton.mp hx]
  exact .root

theorem Visited.possible {budget : ℕ} {x : α} (h : Visited succ budget root x) :
    Possible succ root x := h.imp_right firstMet_from_root

theorem Sure.visited {budget : ℕ} (hbudget : {x | Reach succ root x}.encard ≤ budget) {x : α}
    (h : Sure succ root x) : Visited succ budget root x := by
  induction h with
  | root => exact Or.inl rfl
  | @step x y b _ hy hfirst ih =>
    have hmem : y ∈ run succ budget [root] [root] :=
      (mem_run_iff_visited hbudget).mpr (Or.inr ⟨x, b, ih, hy⟩)
    rcases mem_run_iff_met.mp hmem with hvisited | hmet
    · exact hvisited
    · obtain ⟨z, hz, hfalse⟩ := firstMet_from_root hmet
      exact absurd hfalse (hfirst z hz)

/-- In a consistent graph every node that following leads to is visited in any order. -/
theorem Consistent.sure (hcons : Consistent succ root) {x : α} (hx : Reach succ root x) :
    Sure succ root x := by
  induction hx with
  | root => exact .root
  | @step x y hx hy ih =>
    by_cases hroot : y = root
    · exact hroot ▸ .root
    · refine .step ih hy fun z hz hfalse => hroot ?_
      exact hcons x z y hx hz.reach hy (mem_of_firstEdge hfalse)

/-- When nodes that are visited in any order have an edge to every target, every target is
marked. -/
theorem mem_run_iff_of_sure {budget : ℕ} (hbudget : {x | Reach succ root x}.encard ≤ budget)
    (hsure : ∀ y, Target succ root y → y = root ∨ ∃ x b, Sure succ root x ∧ (y, b) ∈ succ x)
    {y : α} : y ∈ run succ budget [root] [root] ↔ y = root ∨ Target succ root y := by
  rw [mem_run_iff_visited hbudget]
  constructor
  · rintro (rfl | ⟨x, b, hx, hy⟩)
    · exact Or.inl rfl
    · exact Or.inr ⟨x, b, hx.reach, hy⟩
  · rintro (rfl | hy)
    · exact Or.inl rfl
    · refine (hsure y hy).imp_right ?_
      rintro ⟨x, b, hx, hy⟩
      exact ⟨x, b, hx.visited hbudget, hy⟩

/-- When every target is marked, nodes that are visited in some order have an edge to it. -/
theorem possible_of_mem_run {budget : ℕ} (hbudget : {x | Reach succ root x}.encard ≤ budget)
    {y : α} (hy : y ∈ run succ budget [root] [root]) :
    y = root ∨ ∃ x b, Reach succ root x ∧ Possible succ root x ∧ (y, b) ∈ succ x := by
  refine ((mem_run_iff_visited hbudget).mp hy).imp_right ?_
  rintro ⟨x, b, hx, hy⟩
  exact ⟨x, b, hx.reach, hx.possible, hy⟩

/-- The nodes visited, in order, by an exploration that pushes the targets of a visited node in
order, the last one on top, and skips a node it has visited. -/
def order (succ : α → List α) : ℕ → List α → List α → List α
  | _, _, [] => []
  | 0, _, _ :: _ => []
  | budget + 1, visited, x :: stack =>
    if x ∈ visited then order succ budget visited stack
    else x :: order succ budget (visited ++ [x]) ((succ x).reverse ++ stack)

section Order

variable {next : α → List α} {visited : List α}

theorem order_nodup (next : α → List α) (budget : ℕ) (visited stack : List α) :
    (order next budget visited stack).Nodup ∧
      ∀ x ∈ order next budget visited stack, x ∉ visited := by
  induction budget generalizing visited stack with
  | zero => cases stack <;> exact ⟨List.nodup_nil, fun x hx => absurd hx List.not_mem_nil⟩
  | succ budget ih =>
    cases stack with
    | nil => exact ⟨List.nodup_nil, fun x hx => absurd hx List.not_mem_nil⟩
    | cons x stack =>
      rw [order]
      split_ifs with hx
      · exact ih visited stack
      obtain ⟨hnodup, hnew⟩ := ih (visited ++ [x]) ((next x).reverse ++ stack)
      refine ⟨List.nodup_cons.mpr ⟨fun hmem => ?_, hnodup⟩, fun y hy => ?_⟩
      · exact hnew x hmem (List.mem_append_right _ (List.mem_singleton_self x))
      · rcases List.mem_cons.mp hy with rfl | hy
        · exact hx
        · exact fun hvisited => hnew y hy (List.mem_append_left _ hvisited)

/-- Explorations by edges that agree on a set that they do not leave are the same. -/
theorem order_congr {next' : α → List α} {S : α → Prop}
    (hnext : ∀ x, S x → next x = next' x ∧ ∀ y ∈ next x, S y) (budget : ℕ) {stack : List α}
    (hstack : ∀ x ∈ stack, S x) :
    order next budget visited stack = order next' budget visited stack := by
  induction budget generalizing visited stack with
  | zero => cases stack <;> rfl
  | succ budget ih =>
    cases stack with
    | nil => rfl
    | cons x stack =>
      have hrest : ∀ y ∈ stack, S y := fun y hy => hstack y (List.mem_cons_of_mem _ hy)
      obtain ⟨heq, htargets⟩ := hnext x (hstack x List.mem_cons_self)
      rw [order, order, ← heq, ih hrest]
      congr 2
      refine ih fun y hy => ?_
      rcases List.mem_append.mp hy with hy | hy
      · exact htargets y (List.mem_reverse.mp hy)
      · exact hrest y hy

variable {nodes : Finset α}

theorem mem_of_mem_order (hnodes : ∀ x ∈ nodes, ∀ y ∈ next x, y ∈ nodes) {budget : ℕ}
    (hstack : ∀ x ∈ stack, x ∈ nodes) {x : α} (hx : x ∈ order next budget visited stack) :
    x ∈ nodes := by
  induction budget generalizing visited stack with
  | zero => cases stack <;> exact absurd hx List.not_mem_nil
  | succ budget ih =>
    cases stack with
    | nil => exact absurd hx List.not_mem_nil
    | cons y stack =>
      have hrest : ∀ x ∈ stack, x ∈ nodes := fun x hx => hstack x (List.mem_cons_of_mem _ hx)
      have hy : y ∈ nodes := hstack y List.mem_cons_self
      rw [order] at hx
      split_ifs at hx with hvisited
      · exact ih hrest hx
      rcases List.mem_cons.mp hx with rfl | hx
      · exact hy
      · refine ih (fun z hz => ?_) hx
        rcases List.mem_append.mp hz with hz | hz
        · exact hnodes y hy z (List.mem_reverse.mp hz)
        · exact hrest z hz

/-- The pops an exploration still needs: one for each node on the stack, and one for each edge of a
node not visited yet. -/
def pops (next : α → List α) (nodes : Finset α) (visited stack : List α) : ℕ :=
  stack.length + ∑ x ∈ nodes with x ∉ visited, (next x).length

/-- The edges of a visited node move from the sum to the stack. -/
theorem pops_visit {x : α} (hx : x ∈ nodes) (hnew : x ∉ visited) :
    pops next nodes (visited ++ [x]) ((next x).reverse ++ stack) + 1 =
      pops next nodes visited (x :: stack) := by
  have hfilter : nodes.filter (· ∉ visited ++ [x]) = (nodes.filter (· ∉ visited)).erase x := by
    ext y
    simp only [Finset.mem_filter, Finset.mem_erase, List.mem_append, List.mem_singleton, not_or]
    tauto
  have hsum := Finset.add_sum_erase (nodes.filter (· ∉ visited)) (fun x => (next x).length)
    (Finset.mem_filter.mpr ⟨hx, hnew⟩)
  unfold pops
  rw [hfilter, ← hsum, List.length_append, List.length_reverse, List.length_cons]
  omega

/-- With a budget for these pops, what is on the stack is visited, and so is every target of a
visited node. -/
theorem order_closed (hnodes : ∀ x ∈ nodes, ∀ y ∈ next x, y ∈ nodes) {budget : ℕ}
    (hstack : ∀ x ∈ stack, x ∈ nodes) (hbudget : pops next nodes visited stack ≤ budget) :
    (∀ x ∈ stack, x ∈ visited ∨ x ∈ order next budget visited stack) ∧
      ∀ x ∈ order next budget visited stack, ∀ y ∈ next x,
        y ∈ visited ∨ y ∈ order next budget visited stack := by
  induction budget generalizing visited stack with
  | zero =>
    cases stack with
    | nil => exact ⟨fun x hx => absurd hx List.not_mem_nil, fun x hx => absurd hx List.not_mem_nil⟩
    | cons x stack =>
      unfold pops at hbudget
      rw [List.length_cons] at hbudget
      omega
  | succ budget ih =>
    cases stack with
    | nil => exact ⟨fun x hx => absurd hx List.not_mem_nil, fun x hx => absurd hx List.not_mem_nil⟩
    | cons x stack =>
      have hrest : ∀ y ∈ stack, y ∈ nodes := fun y hy => hstack y (List.mem_cons_of_mem _ hy)
      have hx : x ∈ nodes := hstack x List.mem_cons_self
      rw [order]
      split_ifs with hvisited
      · have hless : pops next nodes visited stack ≤ budget := by
          unfold pops at hbudget ⊢
          rw [List.length_cons] at hbudget
          omega
        obtain ⟨hpopped, hclosed⟩ := ih hrest hless
        refine ⟨fun y hy => ?_, hclosed⟩
        rcases List.mem_cons.mp hy with rfl | hy
        · exact Or.inl hvisited
        · exact hpopped y hy
      · have hmore : ∀ y ∈ (next x).reverse ++ stack, y ∈ nodes := by
          intro y hy
          rcases List.mem_append.mp hy with hy | hy
          · exact hnodes x hx y (List.mem_reverse.mp hy)
          · exact hrest y hy
        have hvisit : pops next nodes (visited ++ [x]) ((next x).reverse ++ stack) + 1 =
            pops next nodes visited (x :: stack) := pops_visit hx hvisited
        have hless : pops next nodes (visited ++ [x]) ((next x).reverse ++ stack) ≤ budget := by
          omega
        obtain ⟨hpopped, hclosed⟩ := ih hmore hless
        generalize order next budget (visited ++ [x]) ((next x).reverse ++ stack) = rest at *
        have hmem (y : α) (hy : y ∈ visited ++ [x] ∨ y ∈ rest) : y ∈ visited ∨ y ∈ x :: rest := by
          simp only [List.mem_append, List.mem_cons, List.not_mem_nil] at hy ⊢
          tauto
        constructor
        · intro y hy
          rcases List.mem_cons.mp hy with rfl | hy
          · exact Or.inr List.mem_cons_self
          · exact hmem y (hpopped y (List.mem_append_right _ hy))
        · intro y hy z hz
          rcases List.mem_cons.mp hy with rfl | hy
          · exact hmem z (hpopped z (List.mem_append_left _ (List.mem_reverse.mpr hz)))
          · exact hmem z (hclosed y hy z hz)

/-- From the root, with a budget for every edge of a reachable node, exactly the reachable nodes
are visited. -/
theorem mem_order_iff
    (hnodes : ∀ y, y ∈ nodes ↔ Relation.ReflTransGen (fun x y => y ∈ next x) root y) {budget : ℕ}
    (hbudget : 1 + ∑ x ∈ nodes, (next x).length ≤ budget) {y : α} :
    y ∈ order next budget [] [root] ↔ y ∈ nodes := by
  have hclosed : ∀ x ∈ nodes, ∀ y ∈ next x, y ∈ nodes := fun x hx y hy =>
    (hnodes y).mpr (((hnodes x).mp hx).tail hy)
  have hstack : ∀ x ∈ [root], x ∈ nodes := by
    intro x hx
    rw [List.mem_singleton.mp hx]
    exact (hnodes root).mpr .refl
  have hpops : pops next nodes [] [root] ≤ budget := by
    unfold pops
    simpa using hbudget
  obtain ⟨hroot, hedges⟩ := order_closed hclosed hstack hpops
  refine ⟨mem_of_mem_order hclosed hstack, fun hy => ?_⟩
  induction (hnodes y).mp hy with
  | refl => simpa using hroot root List.mem_cons_self
  | tail hx hxy ih => simpa using hedges _ (ih ((hnodes _).mpr hx)) _ hxy

end Order

end UfsForensic.Worklist
