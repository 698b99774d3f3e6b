import CodeTree.Proofs.Changes
import CodeTree.Proofs.Commas
import Mathlib.Data.List.Flatten

/-! # Items between commas

A list of items between commas stays in step with its view, whatever is done to the view.
-/
namespace CodeTree
variable {p : Parser} {s t : Store} {change : Change} {F : Freedom} {K : List (Option Value)} {E es L D vs : List Value}
  {fuel : Nat} {plan : Plan Value} {u : Store} {r : Unit} {v : Value} {P : Value → Prop}

section Keys
variable {D D' : List Value}

/-- Items with a separator after each. -/
def trailed (D : List Value) : List (Option Value) := D.flatMap (fun x => [some x,none])

@[simp] theorem trailed_nil : trailed [] = [] := rfl

@[simp] theorem trailed_cons (x : Value) (D : List Value) : trailed (x :: D) = some x :: none :: trailed D := rfl

theorem trailed_sublist (h : D.Sublist D') : (trailed D).Sublist (trailed D') := h.flatMap _

theorem trailed_concat (hD : D ≠ []) : (trailed D).dropLast ++ [none] = trailed D := by
  induction D with
  | nil => exact absurd rfl hD
  | cons x D ih =>
    cases D with
    | nil => rfl
    | cons y D =>
      have hrest := ih (by simp)
      simp only [trailed_cons] at hrest ⊢
      simp only [List.dropLast_cons_cons,List.cons_append] at hrest ⊢
      rw [hrest]

theorem between_sublist (h : D.Sublist D') : (trailed D).dropLast.Sublist (trailed D').dropLast := by
  by_cases hD : D = []
  · subst hD
    exact List.nil_sublist _
  · have hD' : D' ≠ [] := fun h' => hD (List.sublist_nil.mp (h' ▸ h))
    have hsub := trailed_sublist h
    rw [← trailed_concat hD,← trailed_concat hD'] at hsub
    exact (List.append_sublist_append_right _).mp hsub

/-- A list of items with separators between them, and perhaps one after the last. -/
inductive Alternates (sep item : Value → Prop) : List Value → List Value → Prop
  | nil : Alternates sep item [] []
  | last {x : Value} : item x → Alternates sep item [x] [x]
  | cons {x c : Value} {L D : List Value} :
    item x → sep c → Alternates sep item L D → Alternates sep item (x :: c :: L) (x :: D)

/-- The keys of such a list. -/
inductive Between : List (Option Value) → List Value → Prop
  | nil : Between [] []
  | last (x : Value) : Between [some x] [x]
  | cons {K : List (Option Value)} {D : List Value} (x : Value) : Between K D → Between (some x :: none :: K) (x :: D)

theorem between_trailed (D : List Value) : Between (trailed D) D := by
  induction D with
  | nil => exact .nil
  | cons x D ih => exact .cons x ih

theorem between_dropLast (D : List Value) : Between (trailed D).dropLast D := by
  induction D with
  | nil => exact .nil
  | cons x D ih =>
    cases D with
    | nil => exact .last x
    | cons y D => exact .cons x ih

theorem Between.eq (h : Between K D) : K = trailed D ∨ K = (trailed D).dropLast := by
  induction h with
  | nil => exact .inl rfl
  | last x => exact .inr rfl
  | @cons K D x _ ih =>
    cases D with
    | nil => exact .inl (by simpa using ih)
    | cons y D => exact ih.imp (fun h => by rw [h]; rfl) (fun h => by rw [h]; rfl)

theorem Between.includes (h : Between K D) (hsub : D'.Sublist D) : (trailed D').dropLast.Sublist K := by
  refine (between_sublist hsub).trans ?_
  rcases h.eq with rfl | rfl
  · exact (List.dropLast_prefix _).sublist
  · exact List.Sublist.refl _

variable {sep item : Value → Prop} {key : Value → Option Value} {L : List Value}

theorem Alternates.between (h : Alternates sep item L D) (hsep : ∀ c, sep c → key c = none)
    (hitem : ∀ x, item x → key x = some x) : Between (L.map key) D := by
  induction h with
  | nil => exact .nil
  | last hx =>
    rw [List.map_cons,hitem _ hx]
    exact .last _
  | cons hx hc _ ih =>
    rw [List.map_cons,List.map_cons,hitem _ hx,hsep _ hc]
    exact .cons _ ih

theorem Between.alternates (h : Between K D) (hK : L.map key = K)
    (hL : ∀ x ∈ L, (sep x ∧ key x = none) ∨ (item x ∧ key x = some x)) : Alternates sep item L D := by
  induction h generalizing L with
  | nil =>
    rw [List.map_eq_nil_iff.mp hK]
    exact .nil
  | last x =>
    obtain ⟨a,rfl,ha⟩ := List.map_eq_singleton_iff.mp hK
    obtain ⟨hi,rfl⟩ := item_of_key hL List.mem_cons_self ha
    exact .last hi
  | cons x _ ih =>
    obtain ⟨a,rest,rfl,ha,hrest⟩ := List.map_eq_cons_iff.mp hK
    obtain ⟨b,rest,rfl,hb,hrest⟩ := List.map_eq_cons_iff.mp hrest
    obtain ⟨hi,rfl⟩ := item_of_key hL List.mem_cons_self ha
    exact .cons hi (sep_of_key hL (by simp) hb) (ih hrest (fun x hx => hL x (by simp [hx])))

/-- The keys of what is expected for some items: in flat style no separator follows the last. -/
def spread (flat : Bool) (D : List Value) : List (Option Value) := if flat then (trailed D).dropLast else trailed D

theorem dropLast_prefix_spread (flat : Bool) (D : List Value) : (trailed D).dropLast <+: spread flat D := by
  cases flat with
  | true => exact List.prefix_refl _
  | false => exact List.dropLast_prefix _

theorem between_spread (flat : Bool) (D : List Value) : Between (spread flat D) D := by
  cases flat with
  | true => exact between_dropLast D
  | false => exact between_trailed D

theorem between_of_prefixes {flat : Bool} (h : (trailed D).dropLast <+: K) (h' : K <+: spread flat D) : Between K D := by
  have htrailed : K <+: trailed D := by
    refine h'.trans ?_
    cases flat with
    | true => exact List.dropLast_prefix _
    | false => exact List.prefix_refl _
  obtain ⟨rest,rfl⟩ := h
  by_cases hD : D = []
  · subst hD
    have hrest : rest = [] := by simpa using htrailed
    subst hrest
    exact .nil
  · have hrest : rest <+: [none] := by
      have h := trailed_concat hD
      rwa [← h,List.dropLast_concat,List.prefix_append_right_inj] at htrailed
    rcases List.prefix_cons_iff.mp hrest with rfl | ⟨more,rfl,hmore⟩
    · rw [List.append_nil]
      exact between_dropLast D
    · rw [List.prefix_nil.mp hmore,trailed_concat hD]
      exact between_trailed D

end Keys

/-- Every item but the last fits something expected. -/
def Plan.FitsBefore (plan : Plan Value) (E : List Value) : Prop :=
  ∀ before x y after, plan.result = before ++ x :: y :: after → ∃ e ∈ E, plan.Fits x e

theorem Plan.FitsBefore.of_split {ys zs : List Value} (hresult : plan.result = ys ++ zs) (hys : List.Forall₂ plan.Fits ys E)
    (hzs : zs.length ≤ 1) : plan.FitsBefore E := by
  intro before x y after hsplit
  refine exists_fits hys ?_
  rw [hresult] at hsplit
  have hlength : before.length < ys.length := by
    have h := congrArg List.length hsplit
    simp only [List.length_append,List.length_cons] at h
    omega
  have hx : (ys ++ zs)[before.length]? = some x := by
    rw [hsplit]
    simp
  rw [List.getElem?_append_left hlength] at hx
  exact List.mem_of_getElem? hx

section Scanned
variable {D D' L E : List Value} {key : Value → Option Value} {plan : Plan Value} {flat : Bool}
  (hE : E.map key = spread flat D')
  (hfits : ∀ {ys ds : List Value}, List.Forall₂ plan.Fits ys ds → ys.map key = ds.map key)
include hE hfits

theorem Augmented.between (h : Augmented key L E plan) (hL : Between (L.map key) D) (hsub : D.Sublist D') :
    Between (plan.result.map key) D' ∧ plan.FitsBefore E := by
  obtain ⟨placed,ys,zs,-,hresult,hys,-,hlongest⟩ := h.split
  have hkeys : plan.result.map key = spread flat D' ++ zs.map key := by
    rw [hresult,List.map_append,hfits hys,hE]
  have hspread : ∀ {K : List (Option Value)}, K.Sublist (trailed D').dropLast → K.Sublist (E.map key) := fun hK => by
    rw [hE]
    exact hK.trans (dropLast_prefix_spread flat D').sublist
  have hnone : zs = [] → Between (plan.result.map key) D' ∧ plan.FitsBefore E := by
    rintro rfl
    refine ⟨?_,.of_split hresult hys (by simp)⟩
    rw [hkeys,List.map_nil,List.append_nil]
    exact between_spread flat D'
  rcases hL.eq with hL | hL
  · by_cases hD : D = []
    · subst hD
      have hLnil : L = [] := List.map_eq_nil_iff.mp hL
      exact hnone (List.suffix_nil.mp (hlongest L [] (by simp) (by simp [hLnil])))
    · cases flat with
      | false =>
        refine hnone (List.suffix_nil.mp (hlongest L [] (by simp) ?_))
        rw [hL,hE]
        exact trailed_sublist hsub
      | true =>
        rw [← trailed_concat hD] at hL
        obtain ⟨as,bs,rfl,has,hbs⟩ := List.map_eq_append_iff.mp hL
        obtain ⟨b,rfl,hb⟩ := List.map_eq_singleton_iff.mp hbs
        have hsuffix := hlongest as [b] rfl (hspread (has ▸ between_sublist hsub))
        rcases List.suffix_cons_iff.mp hsuffix with rfl | hnil
        · refine ⟨?_,.of_split hresult hys (by simp)⟩
          have hD' : D' ≠ [] := fun h => hD (List.sublist_nil.mp (h ▸ hsub))
          rw [hkeys,List.map_singleton,hb]
          change Between ((trailed D').dropLast ++ [none]) D'
          rw [trailed_concat hD']
          exact between_trailed D'
        · exact hnone (List.suffix_nil.mp hnil)
  · exact hnone (List.suffix_nil.mp (hlongest L [] (by simp) (hspread (hL ▸ between_sublist hsub))))

theorem Augmented.exact (h : Augmented key L E plan) (hL : (L.map key).Sublist (spread flat D')) :
    Between (plan.result.map key) D' ∧ plan.FitsBefore E := by
  have hall := h.all_placed (hE ▸ hL)
  refine ⟨?_,.of_split (List.append_nil _).symm hall (by simp)⟩
  rw [hfits hall,hE]
  exact between_spread flat D'

theorem Reduced.isPrefix (h : Reduced key L E plan) :
    plan.result.map key <+: spread flat D' ∧ plan.FitsBefore E := by
  refine ⟨hE ▸ h.isPrefix_keys hfits,fun before x y after hsplit => ?_⟩
  obtain ⟨ds,fs,rfl,hds⟩ := h.split
  obtain ⟨e,he,hfit⟩ := exists_fits hds (x := x) (by simp [hsplit])
  exact ⟨e,List.mem_append_left _ he,hfit⟩

theorem Reduced.between (h : Reduced key L E plan) (hL : (trailed D').dropLast.Sublist (L.map key)) :
    Between (plan.result.map key) D' :=
  between_of_prefixes (h.longest _ (hE ▸ dropLast_prefix_spread flat D') hL) (h.isPrefix hE hfits).1

end Scanned

section Pass
variable {w : ViewId} {l : ListId} {n : NodeId} {f : Field} {k : Kind} {flat : Bool} {D L : List Value} {r : Unit}

theorem formatting_free (n : NodeId) : Freedom.attributes.attr n (.field .secondFormatting) := fun h => by cases h

theorem indent_free (n : NodeId) : Freedom.attributes.attr n (.field .indent) := fun h => by cases h

/-- What a list of items between commas consists of. -/
def Store.Belongs (s : Store) (v : Value) : Prop := s.Comma v ∨ s.Item "comma" v

theorem Store.Belongs.frame (h : s.Belongs v) (hF : s.Frame F t) (ht : F.KeepsTypes) : t.Belongs v :=
  h.imp (fun h => h.frame hF ht) (fun h => h.frame hF ht)

theorem Store.Comma.key (h : s.Comma v) : sepKey "comma" s v = none := sepKey_eq_none h.goes

theorem Store.Belongs.key (h : s.Belongs v) :
    (s.Comma v ∧ sepKey "comma" s v = none) ∨ (s.Item "comma" v ∧ sepKey "comma" s v = some v) :=
  h.imp (fun h => ⟨h,h.key⟩) (fun h => ⟨h,h.sepKey⟩)

theorem Store.Comma.not_item (h : s.Comma v) : ¬ s.Item "comma" v := by
  intro hitem
  have hkey := hitem.sepKey
  rw [h.key] at hkey
  cases hkey

theorem Store.Belongs.typed (h : s.Belongs v) : s.Typed v :=
  h.elim (fun h => ⟨_,_,h.goes⟩) (fun h => h.typed)

theorem expectedItems_trailed {style : Option Value} :
    Gives .attributes (fun s => Held s w l n f k .comma ∧ s.ShowsIn w style D) (fun es t => ∃ all, Followed t.Comma D all ∧
      es = if styleIs style "flat" then all.dropLast else all) (expectedItems w) := by
  refine expectedItems_gives (stable_held.and (stable_showsIn id style D)) (fun v s t hs hF => hs.frame hF Freedom.type_kept)
    (fun s hs => ?_) (fun _ _ _ _ _ _ _ _ _ h => (Kept.of_run h).comma) (fun _ _ n _ _ => formatting_free n)
    (fun _ _ _ _ n _ _ _ _ => indent_free n) (fun _ h => h)
  obtain ⟨c,hc,hform,-⟩ := hs.1.view
  obtain ⟨c',hc',hshown⟩ := hs.2
  cases hc.symm.trans hc'
  exact ⟨c,hc,hform,hshown⟩

theorem expectedItems_commaed : Gives .attributes (fun s => Held s w l n f k .comma) (fun _ _ => True) (expectedItems w) := by
  intro p s hs
  obtain ⟨c,hc,-⟩ := hs.view
  have hshown : s.ShowsIn w c.style c.items := ⟨c,hc,rfl,rfl⟩
  exact Edit.Meets.weaken expectedItems_trailed (fun _ h => h) (fun _ _ h => ⟨h.1.1,trivial⟩) p s ⟨hs,hshown⟩

theorem expectedItems_commas (hheld : Held s w l n f k .comma) (hshown : InStyle s w flat D)
    (h : expectedItems w p s = .ok es t) :
    s.Frame .attributes t ∧ ∃ all, Followed (fun v => t.Comma v ∧ (flat = true → t.SpacedComma l v)) D all ∧
      es = if flat then all.dropLast else all := by
  cases flat with
  | true =>
    have hP : ∀ v, Stable .nothing (fun s => s.SpacedComma l v) :=
      fun v s t hs hF => hs.frame hF (fun _ _ h => h) (fun _ _ h => h)
    obtain ⟨hF,-,all,hall,rfl⟩ := Edit.Meets.frame_ok (expectedItems_flat (stable_held.and (stable_inStyle id true D))
      (fun _ hs => hs.1) (fun _ hs => hs.2) hP (fun _ _ _ _ _ _ hs h => spacedComma_of_build hs.1 h)) ⟨hheld,hshown⟩ h
    exact ⟨hF.mono (Freedom.nothing_le _),all,hall.imp (fun v hv => ⟨hv.1,fun _ => hv⟩),rfl⟩
  | false =>
    obtain ⟨hF,-,all,hall,hes⟩ := Edit.Meets.frame_ok expectedItems_trailed ⟨hheld,hshown⟩ h
    exact ⟨hF,all,hall.imp (fun v hv => ⟨hv,fun h => by cases h⟩),hes⟩

theorem Followed.keys {key : Value → Option Value} (h : Followed P D es) (hP : ∀ c, P c → key c = none)
    (hD : ∀ x ∈ D, key x = some x) : es.map key = trailed D := by
  induction h with
  | nil => rfl
  | cons hc _ ih =>
    rw [List.map_cons,List.map_cons,hD _ List.mem_cons_self,hP _ hc,ih (List.forall_mem_cons.mp hD).2]
    rfl

theorem Followed.mem (h : Followed P D es) : ∀ e ∈ es, e ∈ D ∨ P e := by
  induction h with
  | nil => simp
  | cons hc _ ih =>
    intro e he
    rcases List.mem_cons.mp he with rfl | he
    · exact .inl List.mem_cons_self
    · rcases List.mem_cons.mp he with rfl | he
      · exact .inr hc
      · exact (ih e he).imp (List.mem_cons_of_mem _) id

theorem spaced_of_fits {all : List Value} (hF : u.Frame (.editing w l) t) (hD : ∀ x ∈ D, u.Item "comma" x)
    (hall : Followed (fun v => u.Comma v ∧ u.SpacedComma l v) D all) (hE : E ⊆ all)
    (hpairs : ∀ q ∈ plan.pairs, u.Comma q.1 ∧ u.Comma q.2 ∧ q.2 ∈ E)
    (halign : alignSeparators .comma plan.pairs p (u.holding l plan.result) = .ok r t) {x e : Value} (he : e ∈ E)
    (hfit : plan.Fits x e) (hx : t.Comma x) : t.Spaced x := by
  have hlist : u.Frame ⟨fun _ _ => False,fun l' => l' = l,fun _ => False⟩ (u.holding l plan.result) :=
    Store.frame_holding rfl _
  have hspaced : ∀ e ∈ all, e ∉ D → (u.holding l plan.result).Spaced e := by
    intro e he hnot
    obtain ⟨-,hspaced⟩ := (hall.mem e he).resolve_left hnot
    obtain ⟨-,l',-,h⟩ := hspaced.frame hlist (fun _ _ h => h) (fun _ h => h)
    exact ⟨l',h⟩
  have hpairs' : ∀ q ∈ plan.pairs, (u.holding l plan.result).Comma q.1 ∧ (u.holding l plan.result).Spaced q.2 := by
    intro q hq
    obtain ⟨h₁,h₂,hmem⟩ := hpairs q hq
    exact ⟨h₁.frame hlist (fun _ h => h),hspaced _ (hE hmem) (fun h => h₂.not_item (hD _ h))⟩
  obtain ⟨haligned,hkept⟩ := alignSeparators_spaced hpairs' halign
  rcases hfit with rfl | hpair
  · exact hkept x (hspaced x (hE he) (fun h => hx.not_item ((hD x h).frame hF (fun _ h => h rfl))))
  · exact haligned _ hpair

theorem alignSeparators_commas (pairs : List (Value × Value)) : Within .attributes (alignSeparators .comma pairs) := by
  have hgives : Gives .attributes (fun _ => True) (fun _ _ => True) (alignSeparators .comma pairs) :=
    alignSeparators_gives (fun _ _ h _ => h) (fun _ _ n _ => formatting_free n) (fun _ h => h)
  exact Edit.Meets.weaken hgives (fun _ h => h) (fun _ _ _ => trivial)

/-- One pass over the list behind a view: whatever the view shows is expected with a new comma after it. -/
theorem bringInStep_followed {dir : Direction} (hheld : Held s w l n f k .comma) (hshown : InStyle s w flat D)
    (hlist : s.HasItems l .nodes L) (hL : ∀ x ∈ L, s.Typed x) (hD : ∀ x ∈ D, s.Typed x)
    (h : bringInStep fuel dir w p s = .ok r t) : ∃ E u plan all, Passed (sepKey "comma" t) w l [] L dir s t E plan ∧
      InStyle t w flat D ∧ s.Frame .attributes u ∧ u.Frame (.editing w l) t ∧
      Followed (fun v => u.Comma v ∧ (flat = true → u.SpacedComma l v)) D all ∧ E = (if flat then all.dropLast else all) ∧
      E ⊆ all ∧ (∀ q ∈ plan.pairs, q.1 ∈ L ∧ q.2 ∈ E ∧ sepKey "comma" u q.1 = none ∧ sepKey "comma" u q.2 = none) ∧
      alignSeparators .comma plan.pairs p (u.holding l plan.result) = .ok () t := by
  have hsub : ∀ {all : List Value}, (if flat then all.dropLast else all) ⊆ all := by
    intro all
    split
    · exact (List.dropLast_sublist all).subset
    · exact List.Subset.refl _
  have hexpected : ∀ {es u}, expectedItems w p s = .ok es u → s.Frame .attributes u ∧ ∀ e ∈ es, u.Typed e := by
    intro es u hes
    obtain ⟨hF,all,hall,rfl⟩ := expectedItems_commas hheld hshown hes
    refine ⟨hF,fun e he => ?_⟩
    rcases hall.mem e (hsub he) with he | he
    · exact (hD e he).frame hF Freedom.type_kept
    · exact ⟨_,_,he.1.goes⟩
  have hbehind : s.HasItems l .nodes ([] ++ L) := hlist
  obtain ⟨E,u,plan,hes,hpassed,hpairs,haligned⟩ := bringInStep_passed hbehind hL (fun es u hes => hexpected hes)
    (fun u _ => settledItems_zero (by decide)) alignSeparators_commas h rfl hheld.target
  obtain ⟨hF,all,hall,rfl⟩ := expectedItems_commas hheld hshown hes
  have hstays := (Edit.Meets.frame_ok (alignSeparators_commas plan.pairs) trivial haligned).1
  have hshown' : InStyle (u.holding l plan.result) w flat D :=
    (hshown.frame hF id :)
  exact ⟨_,u,plan,all,hpassed,hshown'.frame hstays id,hF,
    (Store.frame_holding rfl plan.result).trans (hstays.mono (Freedom.attributes_le w l)),hall,rfl,hsub,hpairs,haligned⟩

/-- One pass over a list of items between commas. -/
structure CommasPassed (w : ViewId) (l : ListId) (flat : Bool) (D L : List Value) (dir : Direction) (s t : Store)
    (E : List Value) (plan : Plan Value) : Prop extends Passed (sepKey "comma" t) w l [] L dir s t E plan where
  shown : InStyle t w flat D
  belong : ∀ x ∈ plan.result, t.Belongs x
  expected : E.map (sepKey "comma" t) = spread flat D
  spaced : flat = true → ∀ x e, e ∈ E → plan.Fits x e → t.Comma x → t.Spaced x

theorem bringInStep_commas {dir : Direction} (hheld : Held s w l n f k .comma) (hshown : InStyle s w flat D)
    (hlist : s.HasItems l .nodes L) (hL : ∀ x ∈ L, s.Belongs x) (hD : ∀ x ∈ D, s.Item "comma" x)
    (h : bringInStep fuel dir w p s = .ok r t) : ∃ E plan, CommasPassed w l flat D L dir s t E plan := by
  obtain ⟨E,u,plan,all,hpassed,hshown',hF,hF',hall,hE,hsub,hpairs,haligned⟩ := bringInStep_followed hheld hshown hlist
    (fun x hx => (hL x hx).typed) (fun x hx => (hD x hx).typed) h
  have hL : ∀ x ∈ L, u.Belongs x := fun x hx => (hL x hx).frame hF Freedom.type_kept
  have hD : ∀ x ∈ D, u.Item "comma" x := fun x hx => (hD x hx).frame hF Freedom.type_kept
  have hEs : ∀ e ∈ E, u.Belongs e := fun e he => (hall.mem e (hsub he)).elim (fun he => .inr (hD e he)) (fun he => .inl he.1)
  have htype := Freedom.editing_type w l
  have hcomma : ∀ {x}, u.Belongs x → sepKey "comma" u x = none → u.Comma x := by
    intro x hx hnone
    rcases hx.key with ⟨h,-⟩ | ⟨-,h⟩
    · exact h
    · rw [hnone] at h
      cases h
  have hpairs : ∀ q ∈ plan.pairs, u.Comma q.1 ∧ u.Comma q.2 ∧ q.2 ∈ E := by
    intro q hq
    obtain ⟨hx,he,hnone,hnone'⟩ := hpairs q hq
    exact ⟨hcomma (hL _ hx) hnone,hcomma (hEs _ he) hnone',he⟩
  refine ⟨E,plan,hpassed,hshown',?_,?_,?_⟩
  · intro x hx
    rcases hpassed.origin x hx with hx | hx
    · exact (hL x hx).frame hF' htype
    · exact (hEs x hx).frame hF' htype
  · have hkeys : all.map (sepKey "comma" t) = trailed D :=
      hall.keys (fun c hc => (hc.1.frame hF' htype).key) (fun x hx => ((hD x hx).frame hF' htype).sepKey)
    rw [hE]
    cases flat with
    | true =>
      rw [if_pos rfl,List.map_dropLast,hkeys]
      rfl
    | false => exact hkeys
  · rintro rfl x e he hfit hx
    exact spaced_of_fits hF' hD (hall.imp (fun v hv => ⟨hv.1,hv.2 rfl⟩)) hsub hpairs haligned he hfit hx

end Pass

/-- A view of items between commas that is in step with the list behind it. -/
structure InStep (s : Store) (w : ViewId) (l : ListId) (n : NodeId) (f : Field) (k : Kind) (flat : Bool)
    (D L : List Value) : Prop where
  held : Held s w l n f k .comma
  shown : InStyle s w flat D
  behind : s.HasItems l .nodes L
  between : Alternates s.Comma (s.Item "comma") L D

/-- Every comma before another item has one space after it. -/
def SpacedInside (s : Store) (L : List Value) : Prop :=
  ∀ before c x after, L = before ++ c :: x :: after → s.Comma c → s.Spaced c

theorem Alternates.imp {sep item sep' item' : Value → Prop} (h : Alternates sep item L D) (hsep : ∀ c, sep c → sep' c)
    (hitem : ∀ x, item x → item' x) : Alternates sep' item' L D := by
  induction h with
  | nil => exact .nil
  | last hx => exact .last (hitem _ hx)
  | cons hx hc _ ih => exact .cons (hitem _ hx) (hsep _ hc) ih

theorem Alternates.belongs (h : Alternates s.Comma (s.Item "comma") L D) : ∀ x ∈ L, s.Belongs x := by
  induction h with
  | nil => simp
  | last hx => simpa using .inr hx
  | cons hx hc _ ih => simpa using ⟨.inr hx,.inl hc,ih⟩

theorem Alternates.items (h : Alternates s.Comma (s.Item "comma") L D) : ∀ x ∈ D, s.Item "comma" x := by
  induction h with
  | nil => simp
  | last hx => simpa using hx
  | cons hx _ _ ih => simpa using ⟨hx,ih⟩

section Steps
variable {w : ViewId} {l : ListId} {n : NodeId} {f : Field} {k : Kind} {flat : Bool} {D D' L E : List Value}
  {plan : Plan Value} {dir : Direction}

theorem CommasPassed.inStep (h : CommasPassed w l flat D' L dir s t E plan) (hheld : Held s w l n f k .comma)
    (hkeys : Between (plan.result.map (sepKey "comma" t)) D') (hfits : plan.FitsBefore E) :
    InStep t w l n f k flat D' plan.result ∧ (flat = true → SpacedInside t plan.result) := by
  refine ⟨⟨stable_held _ _ hheld h.frame,h.shown,h.behind,?_⟩,?_⟩
  · exact hkeys.alternates rfl (fun x hx => (h.belong x hx).key)
  · intro hflat before c x after hsplit hc
    obtain ⟨e,he,hfit⟩ := hfits before c x after hsplit
    exact h.spaced hflat c e he hfit hc

theorem Alternates.keys (h : Alternates s.Comma (s.Item "comma") L D) (hF : s.Frame F t) (ht : F.KeepsTypes) :
    Between (L.map (sepKey "comma" t)) D :=
  h.between (fun _ hc => (hc.frame hF ht).key) (fun _ hx => (hx.frame hF ht).sepKey)

section Passing
variable (hheld : Held s w l n f k .comma) (hshown : InStyle s w flat D') (hlist : s.HasItems l .nodes L)
  (hD' : ∀ x ∈ D', s.Item "comma" x)
include hheld hshown hlist hD'

theorem adding_inStep (hL : Alternates s.Comma (s.Item "comma") L D) (hsub : D.Sublist D')
    (h : bringInStep fuel .adding w p s = .ok r t) :
    ∃ L', InStep t w l n f k flat D' L' ∧ (flat = true → SpacedInside t L') := by
  obtain ⟨E,plan,hpass⟩ := bringInStep_commas hheld hshown hlist hL.belongs hD' h
  obtain ⟨hbetween,hfits⟩ := (hpass.adding rfl).between hpass.expected hpass.fits
    (hL.keys hpass.frame (Freedom.editing_type w l)) hsub
  exact ⟨_,hpass.inStep hheld hbetween hfits⟩

variable (hL : ∀ x ∈ L, s.Belongs x)
include hL

theorem taking_inStep (hkeys : ∀ t, s.Frame (.editing w l) t → (trailed D').dropLast.Sublist (L.map (sepKey "comma" t)))
    (h : bringInStep fuel .taking w p s = .ok r t) :
    ∃ L', InStep t w l n f k flat D' L' ∧ (flat = true → SpacedInside t L') := by
  obtain ⟨E,plan,hpass⟩ := bringInStep_commas hheld hshown hlist hL hD' h
  have hreduced := hpass.taking rfl
  exact ⟨_,hpass.inStep hheld (hreduced.between hpass.expected hpass.fits (hkeys t hpass.frame))
    (hreduced.isPrefix hpass.expected hpass.fits).2⟩

/-- Whatever the list was, it is in step after a pass of each sort. -/
theorem realigned_inStep (h : Passes p w [.taking,.adding] s u) :
    ∃ L', InStep u w l n f k flat D' L' ∧ (flat = true → SpacedInside u L') := by
  cases h with
  | @cons _ t _ _ _ _ h₁ hrest =>
    obtain ⟨fuel,h₂⟩ := hrest.single
    have htype := Freedom.editing_type w l
    obtain ⟨E,plan,hpass⟩ := bringInStep_commas hheld hshown hlist hL hD' h₁
    have hheld' := stable_held _ _ hheld hpass.frame
    obtain ⟨E',plan',hpass'⟩ := bringInStep_commas hheld' hpass.shown hpass.behind hpass.belong
      (fun x hx => (hD' x hx).frame hpass.frame htype) h₂
    have hbegins := ((hpass.taking rfl).isPrefix hpass.expected hpass.fits).1
    have hsame : plan.result.map (sepKey "comma" u) = plan.result.map (sepKey "comma" t) :=
      List.map_congr_left (fun x hx => sepKey_frame (hpass.belong x hx).typed hpass'.frame htype)
    obtain ⟨hbetween,hfits⟩ := (hpass'.adding rfl).exact hpass'.expected hpass'.fits (hsame ▸ hbegins.sublist)
    exact ⟨_,hpass'.inStep hheld' hbetween hfits⟩

end Passing

/-- A view that shows other items than those that the list behind it is in step with. -/
def OutOfStep (w : ViewId) (l : ListId) (n : NodeId) (f : Field) (k : Kind) (flat : Bool) (D D' : List Value)
    (s : Store) : Prop :=
  Held s w l n f k .comma ∧ InStyle s w flat D' ∧ ∃ L, s.HasItems l .nodes L ∧
    Alternates s.Comma (s.Item "comma") L D ∧ ∀ x ∈ D', s.Item "comma" x

theorem commaPlaces_plain : ∀ q ∈ commaPlaces, q.1.childContext q.2 = none ∧ q.1 ≠ .getitem ∧
    q.2 ∉ [Field.destination,.finallyBranch,.elseBranch] := by decide

/-- All attributes of one node but its type. -/
def Freedom.own (n : NodeId) : Freedom := ⟨fun m a => m = n ∧ a ≠ .field .type,fun _ => False,fun _ => False⟩

theorem Freedom.own_le : own n ≤ attributes := ⟨fun _ _ h => h.2,fun _ h => h,fun _ h => h⟩

/-- To convert values, attributes are changed of no other node than the one that holds the list. -/
theorem itemsFromEach_sound (hheld : Held s w l n f k .comma) (hsound : ∀ v ∈ vs, s.Sound "comma" v) :
    (itemsFromEach w vs).Meets (fun s' => s' = s) (Store.Frame (.own n))
      (fun xs t => Held t w l n f k .comma ∧ ∀ x ∈ xs, t.Item "comma" x) := by
  have ht : ∀ m, ¬ (Freedom.own n).attr m (.field .type) := fun m h => h.2 rfl
  have hK : Stable (.own n) (fun s => Held s w l n f k .comma ∧ ∀ v ∈ vs, s.Sound "comma" v) :=
    stable_held.and (fun s t hs hF v hv => (hs v hv).frame hF ht (fun _ h => h) (fun _ h => h))
  have hkind : ∀ s, (Held s w l n f k .comma ∧ ∀ v ∈ vs, s.Sound "comma" v) → s.HasKind n k := fun s hs => hs.1.kind
  obtain ⟨hctx,hk,hf⟩ := commaPlaces_plain _ (mem_commaPlaces hheld.through)
  have hgives := itemsFromEach_gives hK separating_comma ht (fun _ h => h) (fun s hs => hs.1)
    (childOfText_gives hK separating_comma hkind hctx hk hf)
    (listOfText_gives hK hkind (fun _ _ _ _ _ h => buildList_tellers separating_comma h) (fun _ _ h => h.tellers (by simp))
      hheld.through (fun g hg => ⟨rfl,fun h => hg (Attr.field.inj h)⟩))
    (by decide) (fun s hs => hs.2)
  exact Edit.Meets.weaken hgives (fun s' hs' => hs' ▸ ⟨hheld,hsound⟩) (fun xs t ht => ⟨ht.1.1,ht.2⟩)

theorem InStyle.shows (h : InStyle s w flat D) : s.ShowsItems w D := by
  obtain ⟨c,hc,hitems,-⟩ := h
  exact ⟨c,hc,hitems⟩

theorem InStyle.showing (h : InStyle s w flat D) (D' : List Value) : InStyle (s.showing w D') w flat D' := by
  obtain ⟨c,hc,-,hstyle⟩ := h
  refine ⟨{ c with items := D' },?_,rfl,hstyle⟩
  rw [Store.showing,Store.mapView_get,if_pos rfl,hc]
  rfl

/-- A call that succeeds converts its values, changes the items and brings the list behind them in step. -/
theorem Change.run_passes (hheld : Held s w l n f k .comma) (hshown : InStyle s w flat D) (hlist : s.HasItems l .nodes L)
    (hD : ∀ x ∈ D, s.Item "comma" x) (hsound : ∀ v ∈ change.values s, s.Sound "comma" v) (hrun : change.run w p s = .ok r u) :
    ∃ xs t D', itemsFromEach w (change.values s) p s = .ok xs t ∧ change.Makes D xs D' ∧
      s.Frame (.editing w l) (t.showing w D') ∧ InStyle (t.showing w D') w flat D' ∧ (t.showing w D').HasItems l .nodes L ∧
      (∀ x ∈ D', (t.showing w D').Item "comma" x) ∧ Passes p w change.passes (t.showing w D') u := by
  obtain ⟨xs,t,D',hxs,hmakes,hF,hF',-,hlist',hD',hpasses⟩ := Change.run_made
    (fun x s t hx hF => hx.frame hF (Freedom.editing_type w l)) (fun _ _ hx => hx.typed) hshown.shows hlist hD
    (fun _ hc _ => hheld.plain (by decide) hc) (fun xs t hxs =>
      (Edit.Meets.frame_ok (itemsFromEach_sound hheld hsound) rfl hxs).imp (fun hF => hF.mono Freedom.own_le) And.right) hrun
  exact ⟨xs,t,D',hxs,hmakes,hF',(hshown.frame hF id).showing D',hlist',hD',hpasses⟩

/-- One call. -/
theorem InStep.call (h : InStep s w l n f k flat D L) (hsound : ∀ v ∈ change.values s, s.Sound "comma" v)
    (hrun : change.run w p s = .ok r u) :
    ∃ xs t D' L', itemsFromEach w (change.values s) p s = .ok xs t ∧ change.Makes D xs D' ∧
      InStep u w l n f k flat D' L' ∧ (flat = true → SpacedInside u L') := by
  obtain ⟨xs,t,D',hxs,hmakes,hF,hshown,hlist,hD',hpasses⟩ := Change.run_passes h.held h.shown h.behind h.between.items hsound hrun
  have htype := Freedom.editing_type w l
  have hheld := stable_held _ _ h.held hF
  have hL : Alternates (t.showing w D').Comma ((t.showing w D').Item "comma") L D :=
    h.between.imp (fun c hc => hc.frame hF htype) (fun x hx => hx.frame hF htype)
  obtain ⟨L',hstep⟩ := hpasses.settle (O := OutOfStep w l n f k flat)
    (I := fun D s => ∃ L, InStep s w l n f k flat D L ∧ (flat = true → SpacedInside s L)) hmakes ⟨hheld,hshown,L,hlist,hL,hD'⟩
    (fun hsub fuel hpass => adding_inStep hheld hshown hlist hD' hL hsub hpass)
    (fun hsub fuel hpass => taking_inStep hheld hshown hlist hD' hL.belongs (fun t hF => (hL.keys hF htype).includes hsub) hpass)
    (fun D s u ⟨hheld,hshown,L,hlist,hL,hD'⟩ hboth => realigned_inStep hheld hshown hlist hD' hL.belongs hboth)
    (fun s hs => hs.elim (fun L h => ⟨h.1.held,h.1.shown,L,h.1.behind,h.1.between,h.1.between.items⟩))
  exact ⟨xs,t,D',L',hxs,hmakes,hstep⟩

theorem InStep.failed {fault : Fault} (h : InStep s w l n f k flat D L) (hsound : ∀ v ∈ change.values s, s.Sound "comma" v)
    (hrun : change.run w p s = .error fault u) (hshown : u.ShowsItems w D) (hbehind : u.HasItems l .nodes L) :
    InStep u w l n f k flat D L := by
  have hF := Change.frame_of_error stable_held h.held h.shown.shows (fun x hx => (h.between.items x hx).typed.node) (fun _ => by decide)
    (fun _ hs => hs.target) ((Edit.Meets.weaken (itemsFromEach_sound h.held hsound) (fun _ h => h) (fun _ _ _ => trivial)).reframe
      (fun _ _ hF => hF.mono Freedom.own_le)) (Edit.Meets.reframe expectedItems_commaed (fun _ _ hF => hF.mono (Freedom.attributes_le w l)))
    alignSeparators_commas hrun
  have htype := Freedom.editing_type w l
  obtain ⟨c,hc,-,hstyle⟩ := h.shown
  obtain ⟨d,hd,hitems⟩ := hshown
  obtain ⟨d',hd',hkeeps⟩ := hF.view hc
  cases hd.symm.trans hd'
  refine ⟨stable_held _ _ h.held hF,⟨d,hd,hitems,hkeeps.style.trans hstyle⟩,hbehind,?_⟩
  exact h.between.imp (fun c hc => hc.frame hF htype) (fun x hx => hx.frame hF htype)

theorem Calls.inStep (hcalls : Calls (Store.Sound "comma") p w l s t) (h : InStep s w l n f k flat D L) :
    ∃ D' L', InStep t w l n f k flat D' L' := by
  induction hcalls with
  | none => exact ⟨D,L,h⟩
  | done _ hsound hrun ih =>
    obtain ⟨D₁,L₁,h₁⟩ := ih
    obtain ⟨_,_,D₂,L₂,-,-,h₂,-⟩ := h₁.call hsound hrun
    exact ⟨D₂,L₂,h₂⟩
  | failed _ hsound hrun hshown hbehind ih =>
    obtain ⟨D₁,L₁,h₁⟩ := ih
    exact ⟨D₁,L₁,h₁.failed hsound hrun (hshown D₁ h₁.shown.shows) (hbehind L₁ h₁.behind)⟩

/-- Every call that succeeds, whatever calls came before it, does to the items what it does to an ordinary
list, and leaves the items and commas in turns behind them. In flat style each comma before another item is
followed by one space. -/
theorem run_commas_inStep {u : Store} {change : Change} (h : InStep s w l n f k flat D L)
    (hcalls : Calls (Store.Sound "comma") p w l s t) (hsound : ∀ v ∈ change.values t, t.Sound "comma" v)
    (hrun : change.run w p t = .ok () u) :
    ∃ D₁ xs t' D₂ L₂, t.ShowsItems w D₁ ∧ itemsFromEach w (change.values t) p t = .ok xs t' ∧
      List.Forall₂ (fun v x => ∀ m, v = .node m → x = v) (change.values t) xs ∧ change.Makes D₁ xs D₂ ∧
      InStep u w l n f k flat D₂ L₂ ∧
      (flat = true → ∀ before c x after, L₂ = before ++ c :: x :: after → u.Comma c → u.FollowedBySpace c) := by
  obtain ⟨D₁,L₁,h₁⟩ := hcalls.inStep h
  obtain ⟨xs,t',D₂,L₂,hxs,hmakes,h₂,hspaced⟩ := h₁.call hsound hrun
  refine ⟨D₁,xs,t',D₂,L₂,h₁.shown.shows,hxs,itemsFromEach_nodes hxs,hmakes,h₂,?_⟩
  intro hflat before c x after hsplit hc
  exact (hspaced hflat before c x after hsplit hc).followed

end Steps

/-- The list `[a,b]`. -/
def namesInBrackets : Store where
  nodes := #[
    ⟨.list,.none,none,false,[.type],[.value],[],[(.field .type,.text "list"), (.field .value,.view ⟨0⟩)],none⟩,
    ⟨.name,.node ⟨0⟩,some (.field .value),false,[.type,.value],[],[],
      [(.field .type,.text "name"), (.field .value,.text "a")],none⟩,
    ⟨.comma,.node ⟨0⟩,some (.field .value),false,[.type],[.firstFormatting,.secondFormatting],[],
      [(.field .type,.text "comma"), (.field .firstFormatting,.list ⟨0⟩), (.field .secondFormatting,.list ⟨1⟩)],none⟩,
    ⟨.name,.node ⟨0⟩,some (.field .value),false,[.type,.value],[],[],
      [(.field .type,.text "name"), (.field .value,.text "b")],none⟩]
  lists := #[
    ⟨.nodes,[],.node ⟨2⟩,some (.field .firstFormatting),[]⟩,
    ⟨.nodes,[],.node ⟨2⟩,some (.field .secondFormatting),[]⟩,
    ⟨.nodes,[.node ⟨1⟩,.node ⟨2⟩,.node ⟨3⟩],.node ⟨0⟩,some (.field .value),[]⟩]
  views := #[⟨.comma,.list ⟨2⟩,[.node ⟨1⟩,.node ⟨3⟩],some (.field .value),none,some (.text "flat"),[]⟩]

theorem namesInBrackets_inStep : InStep namesInBrackets ⟨0⟩ ⟨2⟩ ⟨0⟩ .value .list true [.node ⟨1⟩,.node ⟨3⟩]
    [.node ⟨1⟩,.node ⟨2⟩,.node ⟨3⟩] where
  held := ⟨⟨_,rfl,rfl,rfl,rfl⟩,⟨_,rfl,rfl,rfl,rfl⟩,⟨_,rfl,rfl⟩,rfl⟩
  shown := ⟨_,rfl,rfl,rfl⟩
  behind := ⟨_,rfl,rfl,rfl⟩
  between := by
    have hname : ∀ {i : Nat} {c : NodeCell}, namesInBrackets.nodes[i]? = some c →
        c.stored? (.field .type) = some (.text "name") → namesInBrackets.Item "comma" (.node ⟨i⟩) := by
      intro i c hc htype
      exact ⟨c.kind,.text "name",⟨⟨i⟩,c,rfl,hc,rfl,htype⟩,by simp⟩
    have hcomma : namesInBrackets.Comma (.node ⟨2⟩) := ⟨_,_,rfl,rfl,rfl,rfl,rfl,rfl,rfl,rfl,rfl⟩
    exact .cons (hname rfl rfl) hcomma (.last (hname rfl rfl))

/-- An item is put in once more, and then the first of the two is taken out. -/
theorem run_commas_inStep_names : ∃ t u D L,
    (Change.insert 1 (.node ⟨1⟩)).run ⟨0⟩ (fun _ => .ok .null) namesInBrackets = .ok () t ∧
    (Change.pop (some 0)).run ⟨0⟩ (fun _ => .ok .null) t = .ok () u ∧
    InStep u ⟨0⟩ ⟨2⟩ ⟨0⟩ .value .list true D L ∧
    ∀ before c x after, L = before ++ c :: x :: after → u.Comma c → u.FollowedBySpace c := by
  have hsucceeds : (do
      Change.run ⟨0⟩ (.insert 1 (.node ⟨1⟩))
      Change.run ⟨0⟩ (.pop (some 0)) : Edit Unit).succeeds (fun _ => .ok .null) namesInBrackets = true := by
    decide +kernel
  obtain ⟨_,u,hruns⟩ := Edit.succeeds_iff.mp hsucceeds
  obtain ⟨_,t,hinsert,hpop⟩ := Edit.bind_ok.mp hruns
  have hgoes : namesInBrackets.Goes (.node ⟨1⟩) .name (.text "name") := ⟨⟨1⟩,_,rfl,rfl,rfl,rfl⟩
  have htells : namesInBrackets.Tells "comma" (.node ⟨1⟩) := ⟨_,_,hgoes,by simp⟩
  have hsound : ∀ v ∈ (Change.insert 1 (.node ⟨1⟩)).values namesInBrackets, namesInBrackets.Sound "comma" v := by
    intro v hv
    obtain rfl := List.mem_singleton.mp hv
    exact htells
  have hcalls : Calls (Store.Sound "comma") (fun _ => .ok .null) ⟨0⟩ ⟨2⟩ namesInBrackets t := .done .none hsound hinsert
  obtain ⟨_,_,_,D,L,-,-,-,-,hstep,hspaced⟩ :=
    run_commas_inStep namesInBrackets_inStep hcalls (by simp [Change.values]) hpop
  exact ⟨t,u,D,L,hinsert,hpop,hstep,hspaced rfl⟩

end CodeTree
