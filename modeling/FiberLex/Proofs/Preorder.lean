import FiberLex.Preorder
import FiberLex.Proofs.SparseSet
import Mathlib.Data.Set.Insert
import Mathlib.Logic.Relation

/-!
# What a walk visits

`Visits` describes a walk by rules, with a plain set of keys in place of the sparse set. Everything
about walks is proved by induction over these rules: a walk lists items with distinct new keys,
every item it lists descends from the stack, and what it has seen in the end is closed under
children. When items are their own keys, a walk from nothing lists exactly the descendants.
-/

namespace FiberLex.Preorder

variable {α : Type} {n : Nat} {key : α → Nat} {children : α → List α}

/-- With the keys of `seen` seen before, the items of a stack lead to the items `order`. -/
inductive Visits (n : Nat) (key : α → Nat) (children : α → List α) :
    List α → Set Nat → List α → Prop where
  /-- The stack is empty. -/
  | done {seen : Set Nat} : Visits n key children [] seen []
  /-- An item whose key was seen or does not fit is passed over. -/
  | skip {x : α} {rest : List α} {seen : Set Nat} {order : List α}
      (hx : key x < n → key x ∈ seen) (hr : Visits n key children rest seen order) :
      Visits n key children (x :: rest) seen order
  /-- Any other item is visited, and its children come next. -/
  | visit {x : α} {rest : List α} {seen : Set Nat} {order : List α}
      (hx : key x < n) (hs : key x ∉ seen)
      (hr : Visits n key children (children x ++ rest) (insert (key x) seen) order) :
      Visits n key children (x :: rest) seen (x :: order)

/-- The key of an item visited counts with the keys of those visited after it. -/
theorem insert_union_keys (key : α → Nat) (x : α) (seen : Set Nat) (order : List α) :
    insert (key x) seen ∪ {k | k ∈ order.map key} = seen ∪ {k | k ∈ (x :: order).map key} := by
  ext k
  simp only [Set.mem_union, Set.mem_insert_iff, Set.mem_ofPred_eq, List.map_cons, List.mem_cons]
  tauto

/-- A walk follows the rules, and adds what it visits to what was visited before and to what was
seen. -/
theorem exists_visits_walk (key : α → Nat) (children : α → List α) (stack : List α)
    (seen : SparseSet n) (order : Array α) (hs : seen.Consistent) :
    ∃ new, (walk key children stack seen order).1.toList = order.toList ++ new ∧
      Visits n key children stack {k | seen.contains k = true} new ∧
      (walk key children stack seen order).2.Consistent ∧
      {k | (walk key children stack seen order).2.contains k = true} =
        {k | seen.contains k = true} ∪ {k | k ∈ new.map key} := by
  fun_induction walk key children stack seen order with
  | case1 seen order => exact ⟨[], by simp, .done, hs, by simp⟩
  | case2 seen order item rest seen' h ih =>
    have hnew : (seen.insert (key item)).1 = true := by rw [h]
    have hins : (seen.insert (key item)).2 = seen' := by rw [h]
    obtain ⟨hlt, hc⟩ := hs.insert_fst_iff.mp hnew
    obtain ⟨new, hwalk, hvis, hcons, hseen⟩ := ih (hins ▸ hs.insert _)
    have hset : {k | seen'.contains k = true} =
        insert (key item) {k | seen.contains k = true} := by
      ext k
      rw [← hins]
      exact hs.contains_insert hnew k
    rw [hset] at hvis hseen
    refine ⟨item :: new, by simp [hwalk], .visit hlt (by simp [hc]) hvis, hcons, ?_⟩
    rw [hseen, insert_union_keys]
  | case3 seen order item rest seen' h ih =>
    have hold : (seen.insert (key item)).1 = false := by rw [h]
    have hsame : seen = seen' := by
      have := SparseSet.insert_of_not_new hold
      rw [h] at this
      exact this.symm
    subst hsame
    obtain ⟨new, hwalk, hvis, hcons, hseen⟩ := ih hs
    refine ⟨new, hwalk, .skip (fun hlt => ?_) hvis, hcons, hseen⟩
    by_contra hmem
    exact Bool.eq_false_iff.mp hold (hs.insert_fst_iff.mpr ⟨hlt, Bool.eq_false_iff.mpr hmem⟩)

/-- A walk from nothing follows the rules. -/
theorem visits_visit (n : Nat) (key : α → Nat) (children : α → List α) (stack : List α) :
    Visits n key children stack ∅ (visit n key children stack) := by
  obtain ⟨new, hwalk, hvis, -⟩ := exists_visits_walk key children stack
    (SparseSet.empty n) #[] (SparseSet.consistent_empty n)
  have hnew : visit n key children stack = new := by simpa [visit] using hwalk
  have hset : {k | (SparseSet.empty n).contains k = true} = ∅ := by ext k; simp
  rw [hnew, ← hset]
  exact hvis

namespace Visits

variable {stack : List α} {seen : Set Nat} {order : List α}

/-- The keys of the items listed are new and fit. -/
theorem key_new (h : Visits n key children stack seen order) {x : α} (hx : x ∈ order) :
    key x < n ∧ key x ∉ seen := by
  induction h with
  | done => cases hx
  | skip _ _ ih => exact ih hx
  | visit hlt hs _ ih =>
    rcases List.mem_cons.mp hx with rfl | hx
    · exact ⟨hlt, hs⟩
    · obtain ⟨h1, h2⟩ := ih hx
      exact ⟨h1, fun hm => h2 (Set.mem_insert_of_mem _ hm)⟩

/-- No key is listed twice. -/
theorem nodup_keys (h : Visits n key children stack seen order) : (order.map key).Nodup := by
  induction h with
  | done => simp
  | skip _ _ ih => exact ih
  | @visit x rest seen order hlt hs hr ih =>
    rw [List.map_cons, List.nodup_cons]
    refine ⟨fun hm => ?_, ih⟩
    obtain ⟨y, hy, he⟩ := List.mem_map.mp hm
    exact (hr.key_new hy).2 (by rw [he]; exact Set.mem_insert _ _)

/-- Every item listed descends from an item of the stack. -/
theorem descends (h : Visits n key children stack seen order) {y : α} (hy : y ∈ order) :
    ∃ x ∈ stack, Relation.ReflTransGen (fun a b => b ∈ children a) x y := by
  induction h with
  | done => cases hy
  | skip _ _ ih =>
    obtain ⟨x, hx, hr⟩ := ih hy
    exact ⟨x, List.mem_cons_of_mem _ hx, hr⟩
  | @visit z rest _ _ _ _ _ ih =>
    rcases List.mem_cons.mp hy with rfl | hy
    · exact ⟨y, List.mem_cons_self, .refl⟩
    · obtain ⟨x, hx, hr⟩ := ih hy
      rcases List.mem_append.mp hx with hx | hx
      · exact ⟨z, List.mem_cons_self, .head hx hr⟩
      · exact ⟨x, List.mem_cons_of_mem _ hx, hr⟩

/-- The key of every item of the stack that fits is seen in the end. -/
theorem stack_seen (h : Visits n key children stack seen order) {x : α} (hx : x ∈ stack)
    (hlt : key x < n) : key x ∈ seen ∨ key x ∈ order.map key := by
  induction h with
  | done => cases hx
  | @skip z rest seen order hz _ ih =>
    rcases List.mem_cons.mp hx with rfl | hx
    · exact Or.inl (hz hlt)
    · exact ih hx
  | @visit z rest seen order hz hs _ ih =>
    rcases List.mem_cons.mp hx with rfl | hx
    · exact Or.inr (by simp)
    · rcases ih (List.mem_append_right _ hx) with hm | hm
      · rcases hm with he | hm
        · exact Or.inr (by simp [he])
        · exact Or.inl hm
      · exact Or.inr (by simp [hm])

/-- The key of every child, if it fits, of an item listed is seen in the end. -/
theorem children_seen (h : Visits n key children stack seen order) {x y : α} (hx : x ∈ order)
    (hy : y ∈ children x) (hlt : key y < n) : key y ∈ seen ∨ key y ∈ order.map key := by
  induction h with
  | done => cases hx
  | skip _ _ ih => exact ih hx
  | @visit z rest seen order hz hs hr ih =>
    have hin : key y ∈ insert (key z) seen ∨ key y ∈ order.map key := by
      rcases List.mem_cons.mp hx with rfl | hx
      · exact hr.stack_seen (List.mem_append_left _ hy) hlt
      · exact ih hx
    rcases hin with hm | hm
    · rcases hm with he | hm
      · exact Or.inr (by simp [he])
      · exact Or.inl hm
    · exact Or.inr (by simp [hm])

/-- The item on top of the stack is listed first if its key fits and is new. -/
theorem head_eq {x : α} (h : Visits n key children (x :: stack) seen order) (hlt : key x < n)
    (hs : key x ∉ seen) : order.head? = some x := by
  cases h with
  | skip hx _ => exact absurd (hx hlt) hs
  | visit _ _ _ => rfl

/-- One walk and then another, which passes over what the first has seen, are one walk over both
stacks. -/
theorem append {stack' order' : List α} (h : Visits n key children stack seen order)
    (h' : Visits n key children stack' (seen ∪ {k | k ∈ order.map key}) order') :
    Visits n key children (stack ++ stack') seen (order ++ order') := by
  induction h with
  | done => simpa using h'
  | skip hx _ ih => exact .skip hx (ih h')
  | @visit x rest seen order hx hs _ ih =>
    rw [← insert_union_keys] at h'
    have hrest := ih h'
    rw [List.append_assoc] at hrest
    exact .visit hx hs hrest

/-- Each visit takes one of the keys. -/
theorem length_le (h : Visits n key children stack seen order) : order.length ≤ n := by
  have hlt : ∀ k ∈ order.map key, k < n := by
    intro k hk
    obtain ⟨x, hx, rfl⟩ := List.mem_map.mp hk
    exact (h.key_new hx).1
  have hsub : order.map key ⊆ List.range n := fun k hk => List.mem_range.mpr (hlt k hk)
  simpa using (h.nodup_keys.subperm hsub).length_le

/-- Only the children of the items listed count. -/
theorem congr {children' : α → List α} (h : Visits n key children stack seen order)
    (heq : ∀ x ∈ order, children' x = children x) : Visits n key children' stack seen order := by
  induction h with
  | done => exact .done
  | skip hx _ ih => exact .skip hx (ih heq)
  | @visit x rest seen order hx hs _ ih =>
    refine .visit hx hs ?_
    rw [heq x List.mem_cons_self]
    exact ih fun y hy => heq y (List.mem_cons_of_mem _ hy)

/-- The rules leave no choice. -/
theorem unique {order' : List α} (h : Visits n key children stack seen order)
    (h' : Visits n key children stack seen order') : order = order' := by
  induction h generalizing order' with
  | done =>
    cases h'
    rfl
  | skip hx _ ih =>
    cases h' with
    | skip _ hr => exact ih hr
    | visit hlt hs _ => exact absurd (hx hlt) hs
  | visit hlt hs _ ih =>
    cases h' with
    | skip hx _ => exact absurd (hx hlt) hs
    | visit _ _ hr => rw [ih hr]

end Visits

/-- A walk from nothing depends on the children of the items it lists only. -/
theorem visit_congr {children' : α → List α} {stack : List α}
    (heq : ∀ x ∈ visit n key children stack, children' x = children x) :
    visit n key children' stack = visit n key children stack :=
  (visits_visit n key children' stack).unique ((visits_visit n key children stack).congr heq)

/-! ## Items that are their own keys -/

variable {children : Nat → List Nat}

/-- Whether a number descends from the items of a stack. -/
def Descends (children : Nat → List Nat) (roots : List Nat) (i : Nat) : Prop :=
  ∃ r ∈ roots, Relation.ReflTransGen (fun a b => b ∈ children a) r i

theorem nodup_visit (n : Nat) (children : Nat → List Nat) (roots : List Nat) :
    (visit n id children roots).Nodup := by
  have h := (visits_visit n id children roots).nodup_keys
  rwa [List.map_id] at h

theorem lt_of_mem_visit {roots : List Nat} {i : Nat} (h : i ∈ visit n id children roots) : i < n :=
  ((visits_visit n id children roots).key_new h).1

/-- A walk from nothing lists the descendants of the stack, as far as they fit; numbers that do not
fit must have no children. -/
theorem mem_visit_iff (hout : ∀ i, n ≤ i → children i = []) {roots : List Nat} {i : Nat} :
    i ∈ visit n id children roots ↔ i < n ∧ Descends children roots i := by
  have hv := visits_visit n id children roots
  constructor
  · intro hi
    exact ⟨(hv.key_new hi).1, hv.descends hi⟩
  · rintro ⟨hlt, r, hr, hd⟩
    induction hd with
    | refl =>
      rcases hv.stack_seen hr hlt with hm | hm
      · exact absurd hm (Set.notMem_empty _)
      · simpa using hm
    | @tail j k _ hk ih =>
      have hj : j < n := by
        by_contra hn
        rw [hout j (by omega)] at hk
        cases hk
      rcases hv.children_seen (ih hj) hk hlt with hm | hm
      · exact absurd hm (Set.notMem_empty _)
      · simpa using hm

/-- The first root that fits comes first. -/
theorem head?_visit {r : Nat} {roots : List Nat} (h : r < n) :
    (visit n id children (r :: roots)).head? = some r :=
  (visits_visit n id children (r :: roots)).head_eq h (Set.notMem_empty _)

end FiberLex.Preorder
