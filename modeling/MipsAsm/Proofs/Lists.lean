import Mathlib.Data.List.Forall2
import Mathlib.Data.List.Induction

/-!
# Lists, traversals and folds

What the rest of the theory needs about lists and is not in the library.  Nothing here knows of
assemblers.  The passes over a source are folds that can fail, so most of it is about `List.foldlM`
in `Option`: how to carry an invariant through it, when it succeeds, and how to compare two of them
that do not take the same steps.

* `foldlM_induction`, `foldlM_rel` — what holds along a fold.
* `exists_foldlM`, `exists_foldlM_within` — folds that succeed.
* `foldlM_map_eq`, `foldlM_comm`, `foldlM_stopping` — two folds side by side.
* `mapM_eq_ok`, `exists_of_mapM_eq_error` — what a traversal did to each item.
* `forall₂_filter_filterMap`, `find?_of_forall₂` — two lists item by item.
-/

set_option autoImplicit false

namespace MipsAsm

/-! ## Traversals

A traversal with `List.mapM` succeeds if it does so on every item.  For `Except` the first failure
is what comes out, so a failure can be traced back to an item. -/

theorem eq_ok_of_toOption_eq_some {ε α : Type} {x : Except ε α} {y : α}
    (h : x.toOption = some y) : x = .ok y := by
  cases x with
  | error e => cases h
  | ok z => rw [Option.some.inj h]

/-- A traversal that succeeds succeeds on every item, and what comes out are the values of the
items. -/
theorem mapM_eq_ok {ε α β : Type} {f : α → Except ε β} {g : α → β} {xs : List α} {ys : List β}
    (hg : ∀ x y, f x = .ok y → y = g x) (h : xs.mapM f = .ok ys) :
    (∀ x ∈ xs, f x = .ok (g x)) ∧ ys = xs.map g := by
  induction xs generalizing ys with
  | nil =>
    rw [List.mapM_nil] at h
    cases h
    exact ⟨fun x hx ↦ absurd hx List.not_mem_nil, rfl⟩
  | cons x xs ih =>
    rw [List.mapM_cons] at h
    cases hx : f x with
    | error e => rw [hx] at h; cases h
    | ok y =>
      cases hxs : xs.mapM f with
      | error e => rw [hx, hxs] at h; cases h
      | ok rest =>
        rw [hx, hxs] at h
        cases h
        obtain ⟨hall, hrest⟩ := ih hxs
        obtain rfl := hg x y hx
        refine ⟨fun x' hx' ↦ ?_, by rw [hrest, List.map_cons]⟩
        rcases List.mem_cons.mp hx' with rfl | hx'
        · exact hx
        · exact hall x' hx'

/-- A traversal that fails fails on one of the items. -/
theorem exists_of_mapM_eq_error {ε α β : Type} {f : α → Except ε β} {xs : List α} {e : ε}
    (h : xs.mapM f = .error e) : ∃ x ∈ xs, f x = .error e := by
  induction xs with
  | nil =>
    rw [List.mapM_nil] at h
    cases h
  | cons x xs ih =>
    rw [List.mapM_cons] at h
    cases hx : f x with
    | error e' =>
      rw [hx] at h
      obtain rfl := Except.error.inj h
      exact ⟨x, List.mem_cons_self, hx⟩
    | ok y =>
      cases hxs : xs.mapM f with
      | error e' =>
        rw [hx, hxs] at h
        obtain rfl := Except.error.inj h
        obtain ⟨x', hx', hfault⟩ := ih hxs
        exact ⟨x', List.mem_cons_of_mem x hx', hfault⟩
      | ok ys =>
        rw [hx, hxs] at h
        cases h

/-- A traversal succeeds if it does so on every item. -/
theorem exists_mapM_eq_ok {ε α β : Type} {f : α → Except ε β} {xs : List α}
    (h : ∀ x ∈ xs, ∃ y, f x = .ok y) : ∃ ys, xs.mapM f = .ok ys := by
  induction xs with
  | nil => exact ⟨[], List.mapM_nil⟩
  | cons x xs ih =>
    obtain ⟨y, hy⟩ := h x List.mem_cons_self
    obtain ⟨ys, hys⟩ := ih fun x' hx' ↦ h x' (List.mem_cons_of_mem x hx')
    refine ⟨y :: ys, ?_⟩
    rw [List.mapM_cons, hy, hys]
    rfl

/-- A traversal that has a value for every item gives the values. -/
theorem mapM_eq_some_map {α β : Type} {f : α → Option β} {g : α → β} {xs : List α}
    (h : ∀ x ∈ xs, f x = some (g x)) : xs.mapM f = some (xs.map g) := by
  induction xs with
  | nil => rfl
  | cons x xs ih =>
    rw [List.forall_mem_cons] at h
    rw [List.mapM_cons, h.1, ih h.2]
    rfl

/-! ## Folds that can fail

A fold stops with `none` where a step does.  The step lemmas about the passes of the assembler are
made into statements about whole passes by these. -/

/-- What holds at the start of a fold that can fail and is kept by each of its steps holds at its
end, with the elements that were folded so far in view. -/
theorem foldlM_induction {α β : Type} {f : β → α → Option β} {b : β} {P : List α → β → Prop}
    (hstart : P [] b) {xs : List α} {c : β} (h : xs.foldlM f b = some c)
    (hstep : ∀ done x c c', done ++ [x] <+: xs → done.foldlM f b = some c → P done c →
      f c x = some c' → P (done ++ [x]) c') : P xs c := by
  induction xs using List.reverseRecOn generalizing c with
  | nil =>
    obtain rfl := Option.some.inj h
    exact hstart
  | append_singleton done x ih =>
    rw [List.foldlM_append, Option.bind_eq_bind, Option.bind_eq_some_iff] at h
    obtain ⟨d, hd, hx⟩ := h
    rw [List.foldlM_cons, Option.bind_eq_bind, Option.bind_eq_some_iff] at hx
    obtain ⟨c', hc', hnil⟩ := hx
    obtain rfl := Option.some.inj hnil
    refine hstep done x d c' List.prefix_rfl hd (ih hd ?_) hc'
    exact fun done' y e e' hinit ↦ hstep done' y e e' (hinit.trans (List.prefix_append _ _))

/-- A fold stays at a state that no element changes. -/
theorem foldlM_of_fixed {α β : Type} {f : β → α → Option β} {b : β} (h : ∀ x, f b x = some b)
    (xs : List α) : xs.foldlM f b = some b := by
  induction xs with
  | nil => rfl
  | cons x xs ih =>
    rw [List.foldlM_cons, h x]
    exact ih

/-- What relates each state of a fold to the next relates its start to its end, if it can be
composed. -/
theorem foldlM_rel {α β : Type} {f : β → α → Option β} {R : β → β → Prop} (hrefl : ∀ b, R b b)
    (htrans : ∀ b c d, R b c → R c d → R b d) (hstep : ∀ b x c, f b x = some c → R b c)
    {xs : List α} {b c : β} (h : xs.foldlM f b = some c) : R b c := by
  refine foldlM_induction (P := fun _ c ↦ R b c) (hrefl b) h ?_
  intro _ x d d' _ _ hd hx
  exact htrans b d d' hd (hstep d x d' hx)

/-- A fold whose steps all succeed succeeds. -/
theorem exists_foldlM {α β : Type} {f : β → α → Option β} {xs : List α}
    (h : ∀ b, ∀ x ∈ xs, ∃ c, f b x = some c) (b : β) : ∃ c, xs.foldlM f b = some c := by
  induction xs generalizing b with
  | nil => exact ⟨b, rfl⟩
  | cons x xs ih =>
    obtain ⟨c, hc⟩ := h b x List.mem_cons_self
    obtain ⟨d, hd⟩ := ih (fun b' x' hx' ↦ h b' x' (List.mem_cons_of_mem x hx')) c
    refine ⟨d, ?_⟩
    rw [List.foldlM_cons, hc]
    exact hd

/-- Steps that succeed as long as there were fewer than `N` of them make up a fold that
succeeds. -/
theorem exists_foldlM_within {α β : Type} {f : β → α → Option β} {P : Nat → β → Prop} {N : Nat}
    (hstep : ∀ n < N, ∀ b x, P n b → ∃ c, f b x = some c ∧ P (n + 1) c) {xs : List α} {n : Nat}
    (hn : n + xs.length ≤ N) {b : β} (hb : P n b) : ∃ c, xs.foldlM f b = some c := by
  induction xs generalizing n b with
  | nil => exact ⟨b, rfl⟩
  | cons x xs ih =>
    rw [List.length_cons] at hn
    obtain ⟨c, hc, hnext⟩ := hstep n (by omega) b x hb
    rw [List.foldlM_cons, hc]
    exact ih (by omega) hnext

/-! ## Two folds side by side

Two runs of a pass are compared in three ways: they agree in what a map shows of their states, one
is the image of the other, or one breaks off where the other goes on. -/

/-- Two computations that can fail stay together in what maps of their results show, if what follows
them keeps them together. -/
theorem map_bind_eq {α β γ δ : Type} {x y : Option α} {v : α → γ} {f g : α → Option β} {w : β → δ}
    (h : x.map v = y.map v) (hnext : ∀ a b, v a = v b → (f a).map w = (g b).map w) :
    (x.bind f).map w = (y.bind g).map w := by
  cases x with
  | none =>
    rw [Option.map_none, eq_comm, Option.map_eq_none_iff] at h
    rw [h]
    rfl
  | some a =>
    rw [Option.map_some, eq_comm, Option.map_eq_some_iff] at h
    obtain ⟨b, rfl, hb⟩ := h
    exact hnext a b hb.symm

/-- Two folds that can fail stay together in what a map of their states shows, if each step keeps
them together. -/
theorem foldlM_map_eq {α β γ δ : Type} {f : β → α → Option β} {g : β → γ → Option β}
    {v : β → δ} {R : α → γ → Prop}
    (hstep : ∀ x y, R x y → ∀ b c, v b = v c → (f b x).map v = (g c y).map v) {xs : List α}
    {ys : List γ} (h : List.Forall₂ R xs ys) {b c : β} (hbc : v b = v c) :
    (xs.foldlM f b).map v = (ys.foldlM g c).map v := by
  induction h generalizing b c with
  | nil => exact congrArg some hbc
  | @cons x y xs ys hxy _ ih =>
    rw [List.foldlM_cons, List.foldlM_cons]
    exact map_bind_eq (hstep x y hxy b c hbc) fun b' c' hbc' ↦ ih hbc'

/-- A function that commutes with the steps of a fold, as long as the state is of the right kind,
commutes with the fold. -/
theorem foldlM_comm {α β : Type} {f f' : β → α → Option β} {g : β → β} {P : β → Prop}
    (hkeep : ∀ b x c, P b → f b x = some c → P c)
    (hstep : ∀ b x, P b → f' (g b) x = (f b x).map g) (xs : List α) {b : β} (hb : P b) :
    xs.foldlM f' (g b) = (xs.foldlM f b).map g := by
  induction xs generalizing b with
  | nil => rfl
  | cons x xs ih =>
    rw [List.foldlM_cons, List.foldlM_cons, hstep b x hb]
    cases hx : f b x with
    | none => rfl
    | some c => exact ih (hkeep b x c hb hx)

/-- **A fold that stops** as soon as its state is of some kind, and else takes the steps of another
fold, ends on the way of the other: at its end, or where it has stopped. -/
theorem foldlM_stopping {α β : Type} {f g : β → α → Option β} (stopped : β → Prop)
    (hstop : ∀ b x, stopped b → g b x = some b) (hgo : ∀ b x, ¬stopped b → g b x = f b x)
    {xs : List α} {b c : β} (h : xs.foldlM f b = some c) :
    ∃ (c' : β) (rest : List α), xs.foldlM g b = some c' ∧ rest.foldlM f c' = some c ∧
      (c' = c ∨ stopped c') := by
  induction xs generalizing b with
  | nil => exact ⟨b, [], rfl, h, .inl (Option.some.inj h)⟩
  | cons x xs ih =>
    by_cases hb : stopped b
    · exact ⟨b, x :: xs, foldlM_of_fixed (fun y ↦ hstop b y hb) _, h, .inr hb⟩
    · rw [List.foldlM_cons, Option.bind_eq_bind, Option.bind_eq_some_iff] at h
      obtain ⟨d, hd, hrest⟩ := h
      obtain ⟨c', rest, hc', hway, hend⟩ := ih hrest
      refine ⟨c', rest, ?_, hway, hend⟩
      rw [List.foldlM_cons, hgo b x hb, hd]
      exact hc'

/-- A fold that could have stopped and has not takes all the steps of the other. -/
theorem foldlM_of_not_stopped {α β : Type} {f g : β → α → Option β} (stopped : β → Prop)
    (hstop : ∀ b x, stopped b → g b x = some b) (hgo : ∀ b x, ¬stopped b → g b x = f b x)
    {xs : List α} {b c : β} (h : xs.foldlM g b = some c) (hc : ¬stopped c) :
    xs.foldlM f b = some c := by
  induction xs generalizing b with
  | nil => exact h
  | cons x xs ih =>
    by_cases hb : stopped b
    · rw [foldlM_of_fixed (fun y ↦ hstop b y hb)] at h
      rw [Option.some.inj h] at hb
      exact absurd hb hc
    · rw [List.foldlM_cons, hgo b x hb, Option.bind_eq_bind, Option.bind_eq_some_iff] at h
      obtain ⟨d, hd, hrest⟩ := h
      rw [List.foldlM_cons, hd]
      exact ih hrest

/-! ## Items and their values

`List.filterMap` drops the items without a value, and with them the positions.  These say what is
left of the positions, and what two lists have in common that agree item by item. -/

/-- Where each item has a value, the values in order are those of the items. -/
theorem map_some_filterMap {α β γ : Type} {f : α → Option β} {xs : List α}
    (h : ∀ x ∈ xs, ∃ y, f x = some y) (g : β → γ) :
    (xs.filterMap f).map (fun y ↦ some (g y)) = xs.map fun x ↦ (f x).map g := by
  induction xs with
  | nil => rfl
  | cons x xs ih =>
    obtain ⟨y, hy⟩ := h x List.mem_cons_self
    rw [List.filterMap_cons_some hy, List.map_cons, List.map_cons, hy,
      ih fun x hx ↦ h x (List.mem_cons_of_mem _ hx)]
    rfl

/-- Going through a list with the position of each item is going through the positions. -/
theorem filterMap_zipIdx {α β : Type} (f : α × Nat → Option β) (xs : List α) :
    xs.zipIdx.filterMap f =
      (List.range xs.length).filterMap fun k ↦ xs[k]?.bind fun x ↦ f (x, k) := by
  induction xs using List.reverseRecOn with
  | nil => rfl
  | append_singleton xs x ih =>
    rw [List.zipIdx_append, List.filterMap_append, ih, List.length_append, List.length_singleton,
      List.range_succ, List.filterMap_append]
    congr 1
    · refine List.filterMap_congr fun k hk ↦ ?_
      rw [List.getElem?_append_left (List.mem_range.mp hk)]
    · simp [List.zipIdx, List.filterMap_cons]

/-- Items picked from a list match values picked from their values, if they are picked alike. -/
theorem forall₂_filter_filterMap {α β : Type} {f : α → Option β} {p : β → Bool} {q : α → Bool}
    {xs : List α} (h : ∀ x ∈ xs, q x = true ↔ ∃ y, f x = some y ∧ p y = true) :
    List.Forall₂ (fun x y ↦ x ∈ xs ∧ f x = some y ∧ p y = true) (xs.filter q)
      ((xs.filterMap f).filter p) := by
  induction xs with
  | nil => exact .nil
  | cons x xs ih =>
    have hx := h x List.mem_cons_self
    have hrest : List.Forall₂ (fun x' y ↦ x' ∈ x :: xs ∧ f x' = some y ∧ p y = true) (xs.filter q)
        ((xs.filterMap f).filter p) :=
      (ih fun x' hx' ↦ h x' (List.mem_cons_of_mem _ hx')).imp
        fun _ _ hxy ↦ hxy.imp_left (List.mem_cons_of_mem x)
    cases hq : q x with
    | true =>
      obtain ⟨y, hy, hp⟩ := hx.mp hq
      rw [List.filter_cons_of_pos hq, List.filterMap_cons_some hy, List.filter_cons_of_pos hp]
      exact .cons ⟨List.mem_cons_self, hy, hp⟩ hrest
    | false =>
      rw [List.filter_cons_of_neg (by rw [hq]; exact Bool.false_ne_true)]
      cases hy : f x with
      | none =>
        rw [List.filterMap_cons_none hy]
        exact hrest
      | some y =>
        rw [List.filterMap_cons_some hy, List.filter_cons_of_neg]
        · exact hrest
        · intro hp
          rw [hx.mpr ⟨y, hy, hp⟩] at hq
          cases hq

/-- A search through one of two related lists finds what the search through the other finds. -/
theorem find?_of_forall₂ {α β : Type} {R : α → β → Prop} {p : α → Bool} {q : β → Bool}
    (hpq : ∀ x y, R x y → p x = q y) {xs : List α} {ys : List β} (h : List.Forall₂ R xs ys) {x : α}
    (hx : xs.find? p = some x) : ∃ y, ys.find? q = some y ∧ R x y := by
  induction h with
  | nil => cases hx
  | cons hrel _ ih =>
    rw [List.find?_cons] at hx ⊢
    rw [← hpq _ _ hrel]
    split at hx
    · obtain rfl := Option.some.inj hx
      exact ⟨_, rfl, hrel⟩
    · exact ih hx

theorem getElem?_rel {α β : Type} {R : α → β → Prop} {xs : List α} {ys : List β}
    (h : List.Forall₂ R xs ys) (k : Nat) : Option.Rel R xs[k]? ys[k]? := by
  induction h generalizing k with
  | nil => exact .none
  | cons hxy _ ih =>
    cases k with
    | zero => exact .some hxy
    | succ k => exact ih k

theorem forall₂_set {α β : Type} {R : α → β → Prop} {xs : List α} {ys : List β}
    (h : List.Forall₂ R xs ys) {x : α} {y : β} (hxy : R x y) (k : Nat) :
    List.Forall₂ R (xs.set k x) (ys.set k y) := by
  induction h generalizing k with
  | nil => exact .nil
  | cons hhead htail ih =>
    cases k with
    | zero => exact .cons hxy htail
    | succ k => exact .cons hhead (ih k)

/-! ## Lists up to order

Lists with the same items in another order, where the order does not matter or is known. -/

/-- Lists in which numbers go up are equal if they have the same items. -/
theorem eq_of_ascending {α : Type} {l l' : List (α × Nat)} (hl : l.Pairwise (·.2 < ·.2))
    (hl' : l'.Pairwise (·.2 < ·.2)) (hmem : ∀ e, e ∈ l ↔ e ∈ l') : l = l' := by
  have hnodup : ∀ {k : List (α × Nat)}, k.Pairwise (·.2 < ·.2) → k.Nodup := by
    intro k hk
    refine hk.imp fun hlt heq ↦ ?_
    rw [heq] at hlt
    exact Nat.lt_irrefl _ hlt
  have hperm := (List.perm_ext_iff_of_nodup (hnodup hl) (hnodup hl')).mpr hmem
  refine hperm.eq_of_pairwise (fun a b _ _ hab hba ↦ ?_) hl hl'
  omega

/-- Where at most one of several attempts succeeds, their order does not matter. -/
theorem findSome?_eq_of_perm {α β : Type} {f : α → Option β}
    (hunique : ∀ x y v w, f x = some v → f y = some w → x = y) {xs ys : List α}
    (h : xs.Perm ys) : xs.findSome? f = ys.findSome? f := by
  induction h with
  | nil => rfl
  | cons x h ih => rw [List.findSome?_cons, List.findSome?_cons, ih]
  | swap x y zs =>
    rw [List.findSome?_cons, List.findSome?_cons, List.findSome?_cons, List.findSome?_cons]
    cases hx : f x with
    | none => rfl
    | some v =>
      cases hy : f y with
      | none => rfl
      | some w => rw [← hy, ← hx, hunique x y v w hx hy]
  | trans h h' ih ih' => exact ih.trans ih'

/-- The largest item depends only on which items there are. -/
theorem max?_getD_congr {xs ys : List Nat} (h : ∀ x, x ∈ xs ↔ x ∈ ys) :
    xs.max?.getD 0 = ys.max?.getD 0 := by
  have hsame : xs.max? = ys.max? := by
    cases hxs : xs.max? with
    | none =>
      rw [List.max?_eq_none_iff] at hxs
      subst hxs
      rw [eq_comm, List.max?_eq_none_iff, List.eq_nil_iff_forall_not_mem]
      exact fun y hy ↦ List.not_mem_nil ((h y).mpr hy)
    | some m =>
      rw [List.max?_eq_some_iff] at hxs
      rw [eq_comm, List.max?_eq_some_iff]
      exact ⟨(h m).mp hxs.1, fun y hy ↦ hxs.2 y ((h y).mpr hy)⟩
  rw [hsame]

end MipsAsm
