import CodeTree.Proofs.LineRuns
import CodeTree.Proofs.Mending

/-! # What one pass leaves, whatever it starts from

Neither the list nor what is expected of it has to be in any order for a pass to come to its end. Adding keeps the
whole list and fills the first places as expected; taking away keeps a part that stands in the places expected.
-/
namespace CodeTree
variable {s u : Store} {c : ViewCell} {L E : List Value} {dir : Direction} {x : Value}

/-- What stands in a place is what is expected there, or both are separators. A blank line that is an item of the
view is no separator when something is added. -/
def Agrees (dir : Direction) (c : ViewCell) (s : Store) (x e : Value) : Prop :=
  x = e ∨ hasType x c.form.separator s = .ok true ∧ hasType e c.form.separator s = .ok true ∧
    (dir = .adding → c.form.lineBased = true → x ∉ c.items ∧ e ∉ c.items)

/-- What a pass owes for a list and what is expected of it. -/
def Direction.Owes (agrees : Value → Value → Prop) (L E ys : List Value) : Direction → Prop
  | .adding => L.Sublist ys ∧ List.Forall₂ agrees (ys.take E.length) E
  | .taking => ys.Sublist L ∧ ys.length ≤ E.length ∧ List.Forall₂ agrees ys (E.take ys.length)

theorem hasType_of_sepKey {word : String} (h : sepKey word s x = none) : hasType x word s = .ok true := by
  unfold sepKey at h
  split at h
  · assumption
  · cases h

section Typed
variable (hL : ∀ x ∈ L, s.Typed x) (hE : ∀ e ∈ E, s.Typed e) (hD : ∀ x ∈ c.items, s.Typed x)
include hL hE hD

/-- Each pass compares by keys that are equal only where items agree. -/
theorem compares_agree (dir : Direction) :
    ∃ key, Compares (judgeOf dir c s) key L E ∧ ∀ x e : Value, key x = (key e : Option Value) → Agrees dir c s x e := by
  have hplain : (dir = .adding → c.form.lineBased = false) → ∀ x e, sepKey c.form.separator s x = sepKey c.form.separator s e →
      Agrees dir c s x e := by
    intro hdir x e hkey
    refine (sepKey_eq_iff.mp hkey).imp_right (fun h => ⟨hasType_of_sepKey h.1,hasType_of_sepKey h.2,fun hadding hline => ?_⟩)
    rw [hdir hadding] at hline
    cases hline
  cases dir with
  | taking => exact ⟨_,compares_taking hL hE,hplain (by simp)⟩
  | adding =>
    cases hline : c.form.lineBased with
    | false => exact ⟨_,compares_adding hL hE hline,hplain (fun _ => hline)⟩
    | true =>
      refine ⟨_,compares_lines hline hD hL hE,fun x e hkey => (lineKey_eq_iff.mp hkey).imp_right (fun ⟨hx,he⟩ => ?_)⟩
      have hout : ∀ v, lineKey c.items s v = none → v ∉ c.items := by
        intro v hv hmem
        rw [lineKey_of_mem hmem (hD v hmem)] at hv
        cases hv
      rw [ViewForm.separator_of_lines hline]
      exact ⟨hasType_of_sepKey (lineKey_eq_none.mp hx).2,hasType_of_sepKey (lineKey_eq_none.mp he).2,
        fun _ _ => ⟨hout x hx,hout e he⟩⟩

theorem planOf_owes (dir : Direction) : (planOf dir c s L E).fault = none ∧
    dir.Owes (Agrees dir c s) L E (planOf dir c s L E).result := by
  obtain ⟨key,hcompares,hagree⟩ := compares_agree hL hE hD dir
  have hfits : ∀ x e, (planOf dir c s L E).Fits x e → Agrees dir c s x e :=
    fun x e hfit => hagree x e (planOf_pairsIn.key_eq hcompares hfit)
  cases dir with
  | adding =>
    obtain ⟨hfault,-,ys,zs,-,hresult,hys,-⟩ := augment_augmented hcompares
    have htake : (planOf .adding c s L E).result.take E.length = ys :=
      (congrArg _ hresult).trans (List.take_left' hys.length_eq)
    exact ⟨hfault,augment_sublist L E,htake ▸ hys.imp hfits⟩
  | taking =>
    obtain ⟨hfault,hsub,⟨ds,fs,rfl,hds⟩,-⟩ := reduce_reduced hcompares
    have htake : (ds ++ fs).take (planOf .taking c s L (ds ++ fs)).result.length = ds := List.take_left' hds.length_eq.symm
    refine ⟨hfault,hsub,?_,?_⟩
    · rw [List.length_append]
      exact hds.length_eq ▸ Nat.le_add_right _ _
    rw [htake]
    exact hds.imp hfits

end Typed

/-- A pass keeps its plan, for the part of the list after the dots in front of it, and aligns the separators that it keeps. -/
theorem bringInStep_planned (hL : ∀ x ∈ L, u.Typed x) (hE : ∀ e ∈ E, u.Typed e) (hD : ∀ x ∈ c.items, u.Typed x) (dir : Direction) :
    ∃ rest ys plan, L = u.leadingPart c.form L ++ rest ∧ planFor dir c L E u = .ok plan ∧ plan.fault = none ∧
      plan.result = u.leadingPart c.form L ++ ys ∧ dir.Owes (Agrees dir c u) rest E ys ∧ (∀ y ∈ plan.result, y ∈ L ∨ y ∈ E) ∧
      (∀ q ∈ plan.pairs, q.1 ∈ L ∧ q.2 ∈ E ∧ sepKey c.form.separator u q.1 = none ∧ sepKey c.form.separator u q.2 = none) ∧
      ∀ {w l p s fuel}, expectedItems w p s = .ok E u → u.views[w.index]? = some c → c.target = .list l → u.HasItems l .nodes L →
        bringInStep (fuel + 1) dir w p s = alignSeparators c.form plan.pairs p (u.holding l plan.result) := by
  obtain ⟨rest,hsplit,hleading⟩ := u.leadingPart_leading c.form hL
  generalize u.leadingPart c.form L = settled at hsplit hleading
  subst hsplit
  obtain ⟨hfault,howes⟩ := planOf_owes (c := c) hleading.typed hE hD dir
  have hsettled := hleading.settledItems (Store.Frame.refl .attributes u)
  have hplan : planFor dir c (settled ++ rest) E u = _ := planFor_eq hsettled
  rw [List.drop_left,List.take_left] at hplan
  refine ⟨rest,_,_,rfl,hplan,hfault,Plan.behind_result _ _,howes,fun y hy => ?_,fun q hq => ?_,?_⟩
  · rw [Plan.behind_result,List.mem_append] at hy
    rcases hy with hy | hy
    · exact .inl (List.mem_append_left _ hy)
    · exact (planOf_origin hy).imp_left (List.mem_append_right _)
  · rw [Plan.behind_pairs] at hq
    obtain ⟨hx,h⟩ := planOf_separators hleading.typed hE q hq
    exact ⟨List.mem_append_right _ hx,h⟩
  · intro w l p s fuel hes hc htarget hlist
    obtain ⟨lc,hlc,-,hitems⟩ := hlist
    have hrun : bringInStep (fuel + 1) dir w p s = _ := bringInStep_known hes hc htarget hlc (hitems ▸ hsettled)
      (by rw [hitems,List.drop_left]; exact hfault)
    rw [hrun,hitems,List.drop_left,List.take_left,Plan.behind_pairs,Plan.behind_result]

end CodeTree
