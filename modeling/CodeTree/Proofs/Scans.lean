import Mathlib.Data.List.Forall2
import Mathlib.Tactic.Common
import CodeTree.Scan

/-! # What the two passes leave

Items are compared by a key: separators share one, every other item has its own. The pass that adds
gives everything expected, followed by what it could not place; it places the longest possible
beginning of the list. The pass that takes away gives a beginning of what is expected, again the
longest possible.
-/
namespace CodeTree
variable {α κ : Type} {judge : α → α → Except Fault Verdict} {key : α → κ} {xs es : List α}

/-- The items of two lists are judged by their keys, and without a fault. -/
def Compares (judge : α → α → Except Fault Verdict) (key : α → κ) (xs es : List α) : Prop :=
  ∀ x ∈ xs, ∀ e ∈ es, ∃ v, judge x e = .ok v ∧ (v = .same → x = e) ∧ (v = .different ↔ key x ≠ key e)

theorem Compares.mono {ys ds : List α} (h : Compares judge key xs es) (hx : ys ⊆ xs) (he : ds ⊆ es) :
    Compares judge key ys ds :=
  fun x hx' e he' => h x (hx hx') e (he he')

theorem Compares.congr {key' : α → κ} (h : Compares judge key xs es) (hx : ∀ x ∈ xs, key' x = key x)
    (he : ∀ e ∈ es, key' e = key e) : Compares judge key' xs es := by
  intro x hx' e he'
  rw [hx x hx',he e he']
  exact h x hx' e he'

theorem Compares.paired {x e : α} (h : Compares judge key xs es) (hx : x ∈ xs) (he : e ∈ es) (hj : judge x e = .ok .paired) :
    key x = key e := by
  obtain ⟨v,hv,-,hkey⟩ := h x hx e he
  obtain rfl : v = .paired := Except.ok.inj (hv.symm.trans hj)
  by_contra hne
  cases hkey.mpr hne

section Judged
variable {x e : α} (h : Compares judge key (x :: xs) (e :: es))
include h

theorem Compares.tail : Compares judge key xs es := h.mono (List.subset_cons_self _ _) (List.subset_cons_self _ _)

theorem Compares.no_fault {fault : Fault} : judge x e ≠ .error fault := by
  obtain ⟨v,hv,-⟩ := h x List.mem_cons_self e List.mem_cons_self
  simp [hv]

theorem Compares.same (hj : judge x e = .ok .same) : x = e := by
  obtain ⟨v,hv,hsame,-⟩ := h x List.mem_cons_self e List.mem_cons_self
  exact hsame (Except.ok.inj (hv.symm.trans hj))

theorem Compares.different (hj : judge x e = .ok .different) : key x ≠ key e := by
  obtain ⟨v,hv,-,hkey⟩ := h x List.mem_cons_self e List.mem_cons_self
  exact hkey.mp (Except.ok.inj (hv.symm.trans hj))

end Judged

namespace Plan
variable {m : Move α} {p : Plan α}

/-- An item is what was expected in its place, or was paired with it. -/
def Fits (p : Plan α) (y e : α) : Prop := y = e ∨ (y,e) ∈ p.pairs

@[simp] theorem andThen_result : (andThen m p).result = m.result ++ p.result := by
  simp [andThen,result]

@[simp] theorem keepAll_result {fault : Option Fault} : (keepAll xs fault).result = xs := by
  simp [keepAll,result,List.flatMap_map,Move.result]

@[simp] theorem keepAll_pairs {fault : Option Fault} : (keepAll xs fault).pairs = [] := by
  simp [keepAll,pairs,Move.pair?,List.filterMap_map]

theorem mem_pairs_andThen {q : α × α} : q ∈ (andThen m p).pairs ↔ m.pair? = some q ∨ q ∈ p.pairs := by
  simp [andThen,pairs]

theorem Fits.andThen {y e : α} (h : p.Fits y e) : (andThen m p).Fits y e :=
  h.imp id (fun h => mem_pairs_andThen.mpr (.inr h))

theorem fits_pair {x e : α} : (Plan.andThen (.pair x e) p).Fits x e :=
  .inr (mem_pairs_andThen.mpr (.inl rfl))

/-- Only items of the two lists that were judged to be separators are paired. -/
def PairsIn (judge : α → α → Except Fault Verdict) (xs es : List α) (p : Plan α) : Prop :=
  ∀ q ∈ p.pairs, q.1 ∈ xs ∧ q.2 ∈ es ∧ judge q.1 q.2 = .ok .paired

theorem PairsIn.none (h : p.pairs = []) : p.PairsIn judge xs es := by
  intro q hq
  rw [h] at hq
  cases hq

theorem PairsIn.andThen {ys ds : List α} (h : p.PairsIn judge ys ds) (hx : ys ⊆ xs) (he : ds ⊆ es)
    (hm : ∀ q, m.pair? = some q → q.1 ∈ xs ∧ q.2 ∈ es ∧ judge q.1 q.2 = .ok .paired) :
    (andThen m p).PairsIn judge xs es := by
  intro q hq
  rcases mem_pairs_andThen.mp hq with hq | hq
  · exact hm q hq
  · obtain ⟨h₁,h₂,h₃⟩ := h q hq
    exact ⟨hx h₁,he h₂,h₃⟩

theorem PairsIn.skip {ys ds : List α} (h : p.PairsIn judge ys ds) (hx : ys ⊆ xs) (he : ds ⊆ es)
    (hm : m.pair? = Option.none) : (Plan.andThen m p).PairsIn judge xs es :=
  h.andThen hx he (by simp [hm])

theorem PairsIn.pair {x e : α} (h : p.PairsIn judge xs es) (hj : judge x e = .ok .paired) :
    (Plan.andThen (.pair x e) p).PairsIn judge (x :: xs) (e :: es) := by
  refine h.andThen (List.subset_cons_self _ _) (List.subset_cons_self _ _) (fun q hq => ?_)
  cases hq
  exact ⟨List.mem_cons_self,List.mem_cons_self,hj⟩

end Plan

theorem augment_pairs (xs es : List α) : (augment judge xs es).PairsIn judge xs es := by
  fun_induction augment judge xs es with
  | case1 xs => exact .none Plan.keepAll_pairs
  | case2 e es ih => exact ih.skip (List.Subset.refl _) (List.subset_cons_self _ _) rfl
  | case3 x xs e es fault hj => exact .none Plan.keepAll_pairs
  | case4 x xs e es hj ih => exact ih.skip (List.subset_cons_self _ _) (List.subset_cons_self _ _) rfl
  | case5 x xs e es hj ih => exact ih.pair hj
  | case6 x xs e es hj ih => exact ih.skip (List.Subset.refl _) (List.subset_cons_self _ _) rfl

theorem augment_sublist (xs es : List α) : xs.Sublist (augment judge xs es).result := by
  fun_induction augment judge xs es with
  | case1 xs => simp
  | case2 e es ih => exact List.nil_sublist _
  | case3 x xs e es fault hj => simp
  | case4 x xs e es hj ih => exact ih.cons_cons x
  | case5 x xs e es hj ih => exact ih.cons_cons x
  | case6 x xs e es hj ih => exact ih.cons e

theorem augment_origin {x : α} (hx : x ∈ (augment judge xs es).result) : x ∈ xs ∨ x ∈ es := by
  fun_induction augment judge xs es with
  | case1 xs => exact .inl (by simpa using hx)
  | case2 e es ih =>
    rcases List.mem_cons.mp hx with rfl | hx
    · exact .inr List.mem_cons_self
    · exact (ih hx).imp_right (List.mem_cons_of_mem _)
  | case3 x xs e es fault hj => exact .inl (by simpa using hx)
  | case4 y xs e es hj ih | case5 y xs e es hj ih =>
    rcases List.mem_cons.mp hx with rfl | hx
    · exact .inl List.mem_cons_self
    · exact (ih hx).imp (List.mem_cons_of_mem _) (List.mem_cons_of_mem _)
  | case6 y xs e es hj ih =>
    rcases List.mem_cons.mp hx with rfl | hx
    · exact .inr List.mem_cons_self
    · exact (ih hx).imp_right (List.mem_cons_of_mem _)

theorem reduce_origin {x : α} (hx : x ∈ (reduce judge xs es).result) : x ∈ xs := by
  fun_induction reduce judge xs es with
  | case1 es => exact hx
  | case2 y xs ih => exact List.mem_cons_of_mem _ (ih hx)
  | case3 x xs e es fault hj => simpa using hx
  | case4 y xs e es hj ih | case5 y xs e es hj ih =>
    rcases List.mem_cons.mp hx with rfl | hx
    · exact List.mem_cons_self
    · exact List.mem_cons_of_mem _ (ih hx)
  | case6 y xs e es hj ih => exact List.mem_cons_of_mem _ (ih hx)

theorem reduce_pairs (xs es : List α) : (reduce judge xs es).PairsIn judge xs es := by
  fun_induction reduce judge xs es with
  | case1 es => exact .none rfl
  | case2 x xs ih => exact ih.skip (List.subset_cons_self _ _) (List.Subset.refl _) rfl
  | case3 x xs e es fault hj => exact .none Plan.keepAll_pairs
  | case4 x xs e es hj ih => exact ih.skip (List.subset_cons_self _ _) (List.subset_cons_self _ _) rfl
  | case5 x xs e es hj ih => exact ih.pair hj
  | case6 x xs e es hj ih => exact ih.skip (List.subset_cons_self _ _) (List.Subset.refl _) rfl

theorem Plan.PairsIn.key_eq {p : Plan α} {y e : α} (hp : p.PairsIn judge xs es) (h : Compares judge key xs es)
    (hfits : p.Fits y e) : key y = key e := by
  rcases hfits with rfl | hpair
  · rfl
  · obtain ⟨hx,he,hj⟩ := hp _ hpair
    exact h.paired hx he hj

theorem Plan.PairsIn.keys {p : Plan α} {ys ds : List α} (hp : p.PairsIn judge xs es) (h : Compares judge key xs es)
    (hfits : List.Forall₂ p.Fits ys ds) : ys.map key = ds.map key := by
  induction hfits with
  | nil => rfl
  | cons hfit _ ih => rw [List.map_cons,List.map_cons,hp.key_eq h hfit,ih]

/-- What the pass that adds leaves: everything expected, then what it could not place. No longer
beginning of the list can be placed. -/
structure Augmented (key : α → κ) (xs es : List α) (p : Plan α) : Prop where
  fault : p.fault = none
  split : ∃ placed ys zs, xs = placed ++ zs ∧ p.result = ys ++ zs ∧ List.Forall₂ p.Fits ys es ∧
    (placed.map key).Sublist (es.map key) ∧
    ∀ as bs, xs = as ++ bs → (as.map key).Sublist (es.map key) → zs <:+ bs

/-- What the pass that takes away leaves: a beginning of what is expected, all of it taken from the
list. No longer beginning can be taken from it. -/
structure Reduced (key : α → κ) (xs es : List α) (p : Plan α) : Prop where
  fault : p.fault = none
  sublist : p.result.Sublist xs
  split : ∃ ds fs, es = ds ++ fs ∧ List.Forall₂ p.Fits p.result ds
  longest : ∀ ks, ks <+: es.map key → ks.Sublist (xs.map key) → ks <+: p.result.map key

theorem Augmented.keep {x e : α} {p : Plan α} {m : Move α} (h : Augmented key xs es p) (hm : m.result = [x])
    (hkey : key x = key e) (hfits : (p.andThen m).Fits x e) :
    Augmented key (x :: xs) (e :: es) (p.andThen m) := by
  obtain ⟨placed,ys,zs,rfl,hresult,hfit,hsub,hlongest⟩ := h.split
  refine ⟨h.fault,x :: placed,x :: ys,zs,rfl,?_,?_,?_,?_⟩
  · rw [Plan.andThen_result,hm,hresult]
    rfl
  · exact .cons hfits (hfit.imp (fun _ _ => Plan.Fits.andThen))
  · simp only [List.map_cons,hkey]
    exact hsub.cons_cons _
  · intro as bs hsplit has
    cases as with
    | nil =>
      rw [List.nil_append] at hsplit
      rw [← hsplit]
      exact List.IsSuffix.trans (List.suffix_append _ _) (List.suffix_cons _ _)
    | cons a as =>
      obtain ⟨rfl,hrest⟩ := List.cons.inj hsplit
      rw [List.map_cons,List.map_cons,hkey] at has
      exact hlongest as bs hrest (List.cons_sublist_cons.mp has)

theorem exists_fits {p : Plan α} {ys : List α} (h : List.Forall₂ p.Fits ys es) {x : α} (hx : x ∈ ys) :
    ∃ e ∈ es, p.Fits x e := by
  induction h with
  | nil => cases hx
  | cons hfit _ ih =>
    rcases List.mem_cons.mp hx with rfl | hx
    · exact ⟨_,List.mem_cons_self,hfit⟩
    · obtain ⟨e,he,hfit⟩ := ih hx
      exact ⟨e,List.mem_cons_of_mem _ he,hfit⟩

theorem Augmented.insert {e : α} {p : Plan α} (h : Augmented key xs es p) (hkey : ∀ x ∈ xs.head?, key x ≠ key e) :
    Augmented key xs (e :: es) (p.andThen (.insert e)) := by
  obtain ⟨placed,ys,zs,hxs,hresult,hfit,hsub,hlongest⟩ := h.split
  refine ⟨h.fault,placed,e :: ys,zs,hxs,?_,?_,?_,?_⟩
  · rw [Plan.andThen_result,hresult]
    rfl
  · exact .cons (.inl rfl) (hfit.imp (fun _ _ => Plan.Fits.andThen))
  · exact hsub.cons _
  · intro as bs hsplit has
    refine hlongest as bs hsplit ?_
    cases as with
    | nil => exact List.nil_sublist _
    | cons a as =>
      have hne : key a ≠ key e := hkey a (by rw [hsplit]; rfl)
      rw [List.map_cons,List.map_cons,List.cons_sublist_cons'] at has
      exact has.resolve_right (fun h => hne h.1)

theorem augment_augmented (h : Compares judge key xs es) : Augmented key xs es (augment judge xs es) := by
  fun_induction augment judge xs es with
  | case1 xs =>
    refine ⟨rfl,[],[],xs,rfl,by simp,.nil,by simp,?_⟩
    intro as bs hsplit has
    have has : as = [] := by simpa using has
    rw [hsplit,has]
    exact List.suffix_refl _
  | case2 e es ih => exact (ih (by simp [Compares])).insert (by simp)
  | case3 x xs e es fault hj => exact absurd hj h.no_fault
  | case4 x xs e es hj ih =>
    obtain rfl := h.same hj
    exact (ih h.tail).keep rfl rfl (.inl rfl)
  | case5 x xs e es hj ih =>
    have hxe := h.paired List.mem_cons_self List.mem_cons_self hj
    exact (ih h.tail).keep rfl hxe Plan.fits_pair
  | case6 x xs e es hj ih =>
    have hxe := h.different hj
    exact (ih (h.mono (List.Subset.refl _) (List.subset_cons_self _ _))).insert (by simpa using hxe)

theorem Reduced.keep {x e : α} {p : Plan α} {m : Move α} (h : Reduced key xs es p) (hm : m.result = [x])
    (hkey : key x = key e) (hfits : (p.andThen m).Fits x e) : Reduced key (x :: xs) (e :: es) (p.andThen m) := by
  obtain ⟨ds,fs,rfl,hfit⟩ := h.split
  have hresult : (p.andThen m).result = x :: p.result := by
    rw [Plan.andThen_result,hm]
    rfl
  refine ⟨h.fault,?_,⟨e :: ds,fs,rfl,?_⟩,?_⟩
  · rw [hresult]
    exact h.sublist.cons_cons x
  · rw [hresult]
    exact .cons hfits (hfit.imp (fun _ _ => Plan.Fits.andThen))
  · intro ks hks hsub
    rw [hresult]
    cases ks with
    | nil => exact List.nil_prefix
    | cons k ks =>
      rw [List.map_cons,List.cons_prefix_cons] at hks
      obtain ⟨rfl,hks⟩ := hks
      rw [List.map_cons,hkey,List.cons_sublist_cons] at hsub
      rw [List.map_cons,hkey,List.cons_prefix_cons]
      exact ⟨rfl,h.longest ks hks hsub⟩

theorem Reduced.drop {x : α} {p : Plan α} (h : Reduced key xs es p) (hkey : ∀ e ∈ es.head?, key x ≠ key e) :
    Reduced key (x :: xs) es (p.andThen (.drop x)) := by
  have hresult : (p.andThen (.drop x)).result = p.result := by
    rw [Plan.andThen_result]
    rfl
  obtain ⟨ds,fs,hes,hfit⟩ := h.split
  refine ⟨h.fault,?_,⟨ds,fs,hes,?_⟩,?_⟩
  · rw [hresult]
    exact h.sublist.cons x
  · rw [hresult]
    exact hfit.imp (fun _ _ => Plan.Fits.andThen)
  · intro ks hks hsub
    rw [hresult]
    refine h.longest ks hks ?_
    cases ks with
    | nil => exact List.nil_sublist _
    | cons k ks =>
      cases es with
      | nil => simp at hks
      | cons e es =>
        rw [List.map_cons,List.cons_prefix_cons] at hks
        rw [List.map_cons,List.cons_sublist_cons'] at hsub
        refine hsub.resolve_right (fun h => hkey e rfl ?_)
        rw [← h.1,hks.1]

theorem reduce_reduced (h : Compares judge key xs es) : Reduced key xs es (reduce judge xs es) := by
  fun_induction reduce judge xs es with
  | case1 es => exact ⟨rfl,List.Sublist.refl _,⟨[],es,rfl,.nil⟩,fun ks _ hsub => by simp_all [Plan.finished,Plan.result]⟩
  | case2 x xs ih => exact (ih (by simp [Compares])).drop (by simp)
  | case3 x xs e es fault hj => exact absurd hj h.no_fault
  | case4 x xs e es hj ih =>
    obtain rfl := h.same hj
    exact (ih h.tail).keep rfl rfl (.inl rfl)
  | case5 x xs e es hj ih =>
    have hxe := h.paired List.mem_cons_self List.mem_cons_self hj
    exact (ih h.tail).keep rfl hxe Plan.fits_pair
  | case6 x xs e es hj ih =>
    have hxe := h.different hj
    exact (ih (h.mono (List.subset_cons_self _ _) (List.Subset.refl _))).drop (by simpa using hxe)

/-- If all of a list can be placed, everything in it fits what is expected. -/
theorem Augmented.all_placed {p : Plan α} (h : Augmented key xs es p) (hsub : (xs.map key).Sublist (es.map key)) :
    List.Forall₂ p.Fits p.result es := by
  obtain ⟨placed,ys,zs,-,hresult,hys,-,hlongest⟩ := h.split
  have hzs : zs = [] := List.suffix_nil.mp (hlongest xs [] (by simp) hsub)
  rw [hresult,hzs,List.append_nil]
  exact hys

section Keys
variable {p : Plan α} (h : Reduced key xs es p)
  (hfits : ∀ {ys ds : List α}, List.Forall₂ p.Fits ys ds → ys.map key = ds.map key)
include h hfits

theorem Reduced.isPrefix_keys : p.result.map key <+: es.map key := by
  obtain ⟨ds,fs,rfl,hds⟩ := h.split
  rw [hfits hds,List.map_append]
  exact List.prefix_append _ _

theorem Reduced.keys_eq (hsub : (es.map key).Sublist (xs.map key)) : p.result.map key = es.map key :=
  (h.isPrefix_keys hfits).eq_of_length_le (h.longest _ (List.prefix_refl _) hsub).length_le

end Keys

end CodeTree
