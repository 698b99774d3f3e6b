import CodeTree.Proofs.Converting
import CodeTree.Proofs.Scans

/-! # Bringing a list in step with its view

How the items of a list are judged against what is expected: by a key that all separators share. From
this, what one pass over the list behind a view amounts to.
-/
namespace CodeTree
variable {p : Parser} {s t : Store} {word : String} {v x e : Value} {dir : Direction} {F : Freedom} {k : Kind}
  {xs es inside : List Value} {l : ListId} {j fuel : Nat} {a : Value} {c : ViewCell} {form : ViewForm} {w : ViewId}

/-- All nodes of one type have the same key, all others are their own. -/
def sepKey (word : String) (s : Store) (v : Value) : Option Value :=
  match hasType v word s with
  | .ok true => none
  | _ => some v

/-- A node with a type. -/
def Store.Typed (s : Store) (v : Value) : Prop := ∃ k type, s.Goes v k type

theorem Store.Goes.sepKey {type : Value} (h : s.Goes v k type) :
    sepKey word s v = if type.reads word then none else some v := by
  unfold CodeTree.sepKey
  rw [h.hasType]
  cases type.reads word <;> rfl

theorem Store.Tells.typed (h : s.Tells word v) : s.Typed v := by
  obtain ⟨k,type,hgoes,-⟩ := h
  exact ⟨k,type,hgoes⟩

theorem Store.Item.typed (h : s.Item word v) : s.Typed v := by
  obtain ⟨k,type,hgoes,-⟩ := h
  exact ⟨k,type,hgoes⟩

theorem Store.Typed.node (h : s.Typed v) : ∃ n, v = .node n := by
  obtain ⟨_,_,n,_,hn,-⟩ := h
  exact ⟨n,hn⟩

theorem Store.Item.sepKey (h : s.Item word v) : sepKey word s v = some v := by
  obtain ⟨k,type,hgoes,hne⟩ := h
  rw [hgoes.sepKey,if_neg (fun hr => hne (Value.reads_iff.mp hr))]

theorem sepKey_eq_none (h : s.Goes v k (.text word)) : sepKey word s v = none := by
  rw [h.sepKey,if_pos (Value.reads_iff.mpr rfl)]

theorem sepKey_some (h : sepKey word s v = some x) : x = v := by
  unfold sepKey at h
  split at h
  · cases h
  · exact (Option.some.inj h).symm

theorem Store.Typed.frame (h : s.Typed v) (hF : s.Frame F t) (ht : F.KeepsTypes) : t.Typed v := by
  obtain ⟨k,type,h⟩ := h
  exact ⟨k,type,h.frame hF ht⟩

/-- The keys of nodes whose types stay are the same afterwards. -/
theorem sepKey_frame (h : s.Typed v) (hF : s.Frame F t) (ht : F.KeepsTypes) :
    sepKey word t v = sepKey word s v := by
  obtain ⟨k,type,h⟩ := h
  rw [h.sepKey,(h.frame hF ht).sepKey]

theorem Store.Typed.is_iff (hx : s.Typed x) (he : s.Typed e) : x.is e = true ↔ x = e := by
  obtain ⟨_,_,n,_,rfl,-⟩ := hx
  obtain ⟨_,_,m,_,rfl,-⟩ := he
  simp [Value.is]

theorem bothSeparate_ok (form : ViewForm) (hx : s.Typed x) (he : s.Typed e) :
    ∃ b, bothSeparate form x e s = .ok b ∧
      (b = true ↔ sepKey form.separator s x = none ∧ sepKey form.separator s e = none) := by
  obtain ⟨_,tx,hx⟩ := hx
  obtain ⟨_,te,he⟩ := he
  refine ⟨tx.reads form.separator && te.reads form.separator,?_,?_⟩
  · simp only [bothSeparate,Read.bind_ok,Read.pure_ok]
    exact ⟨_,hx.hasType,_,he.hasType,rfl⟩
  · rw [hx.sepKey,he.sepKey]
    simp

theorem sepKey_eq_iff : sepKey word s x = sepKey word s e ↔
    x = e ∨ (sepKey word s x = none ∧ sepKey word s e = none) := by
  constructor
  · intro h
    cases hx : sepKey word s x with
    | none => exact .inr ⟨rfl,h.symm.trans hx⟩
    | some a =>
      have he := h.symm.trans hx
      exact .inl ((sepKey_some hx).symm.trans (sepKey_some he))
  · rintro (rfl | ⟨hx,he⟩)
    · rfl
    · rw [hx,he]

section Sorts
variable {sep item : Value → Prop} {key : Value → Option Value} {L : List Value}
  (hL : ∀ x ∈ L, (sep x ∧ key x = none) ∨ (item x ∧ key x = some x))
include hL

theorem item_of_key (ha : a ∈ L) (hkey : key a = some x) : item a ∧ a = x := by
  rcases hL a ha with ⟨-,hnone⟩ | ⟨hi,hsome⟩
  · rw [hnone] at hkey
    cases hkey
  · rw [hsome] at hkey
    exact ⟨hi,Option.some.inj hkey⟩

theorem sep_of_key (ha : a ∈ L) (hkey : key a = none) : sep a := by
  rcases hL a ha with ⟨hs,-⟩ | ⟨-,hsome⟩
  · exact hs
  · rw [hsome] at hkey
    cases hkey

end Sorts

section Judging
variable {c : ViewCell} {xs es : List Value} (hxs : ∀ x ∈ xs, s.Typed x) (hes : ∀ e ∈ es, s.Typed e)
include hxs hes

/-- Taking away compares nodes by their keys. -/
theorem compares_taking :
    Compares (fun x e => judgeTaking c x e s) (sepKey c.form.separator s) xs es := by
  intro x hx e he
  obtain ⟨b,hb,hiff⟩ := bothSeparate_ok c.form (hxs x hx) (hes e he)
  have his := (hxs x hx).is_iff (hes e he)
  simp only [judgeTaking,ne_eq,sepKey_eq_iff]
  cases b with
  | true =>
    refine ⟨.paired,?_,by simp,by simp [hiff.mp rfl]⟩
    simp only [Read.bind_ok]
    exact ⟨true,hb,rfl⟩
  | false =>
    refine ⟨if x.is e then .same else .different,?_,?_,?_⟩
    · simp only [Read.bind_ok]
      exact ⟨false,hb,rfl⟩
    · intro h
      by_contra hne
      rw [if_neg (fun h => hne (his.mp h))] at h
      cases h
    · rw [← his]
      cases x.is e <;> simp_all

theorem compares_adding (hform : c.form.lineBased = false) :
    Compares (fun x e => judgeAdding c x e s) (sepKey c.form.separator s) xs es := by
  intro x hx e he
  obtain ⟨b,hb,hiff⟩ := bothSeparate_ok c.form (hxs x hx) (hes e he)
  have his := (hxs x hx).is_iff (hes e he)
  simp only [judgeAdding,hform,ne_eq,sepKey_eq_iff]
  cases hsame : x.is e with
  | true =>
    have hxe := his.mp hsame
    exact ⟨.same,rfl,fun _ => hxe,by simp [hxe]⟩
  | false =>
    have hne : x ≠ e := fun h => by simp [his.mpr h] at hsame
    refine ⟨if b then .paired else .different,?_,?_,?_⟩
    · simp only [Bool.false_eq_true,if_false,Read.bind_ok]
      exact ⟨b,hb,rfl⟩
    · cases b <;> simp
    · cases b <;> simp_all

end Judging

/-- How a pass compares items. -/
def judgeOf (dir : Direction) (c : ViewCell) (s : Store) (x e : Value) : Except Fault Verdict :=
  match dir with
  | .adding => judgeAdding c x e s
  | .taking => judgeTaking c x e s

theorem compares_judgeOf (hform : c.form.lineBased = false) (hxs : ∀ x ∈ xs, s.Typed x) (hes : ∀ e ∈ es, s.Typed e)
    (dir : Direction) : Compares (judgeOf dir c s) (sepKey c.form.separator s) xs es := by
  cases dir with
  | adding => exact compares_adding hxs hes hform
  | taking => exact compares_taking hxs hes

/-- The moves for a list that is brought in step from its beginning. -/
def planOf (dir : Direction) (c : ViewCell) (s : Store) (inside es : List Value) : Plan Value :=
  match dir with
  | .adding => augment (judgeOf .adding c s) inside es
  | .taking => reduce (judgeOf .taking c s) inside es

theorem planOf_pairsIn : (planOf dir c s inside es).PairsIn (judgeOf dir c s) inside es := by
  cases dir with
  | adding => exact augment_pairs inside es
  | taking => exact reduce_pairs inside es

theorem judgeTaking_paired (h : judgeTaking c x e s = .ok .paired) : bothSeparate c.form x e s = .ok true := by
  simp only [judgeTaking,Read.bind_ok] at h
  obtain ⟨b,hb,h⟩ := h
  cases b with
  | true => exact hb
  | false =>
    have h : (if x.is e then Verdict.same else .different) = .paired := Read.pure_ok.mp h
    split at h <;> cases h

theorem judgeAdding_paired (h : judgeAdding c x e s = .ok .paired) : bothSeparate c.form x e s = .ok true := by
  unfold judgeAdding at h
  have hplain : ¬ (if x.is e then Verdict.same else .different) = .paired := by split <;> decide
  split at h
  · simp only [Read.bind_ok] at h
    obtain ⟨b,hb,h⟩ := h
    cases b with
    | true => exact hb
    | false =>
      obtain ⟨_,-,_,-,h⟩ := h
      exact absurd (Read.pure_ok.mp h) hplain
  · split at h
    · cases Read.pure_ok.mp h
    · simp only [Read.bind_ok,Read.pure_ok] at h
      obtain ⟨b,hb,h⟩ := h
      cases b with
      | true => exact hb
      | false => cases h

theorem planOf_pairs :
    ∀ q ∈ (planOf dir c s inside es).pairs, q.1 ∈ inside ∧ q.2 ∈ es ∧ bothSeparate c.form q.1 q.2 s = .ok true := by
  intro q hq
  obtain ⟨hx,he,hj⟩ := planOf_pairsIn q hq
  refine ⟨hx,he,?_⟩
  cases dir with
  | adding => exact judgeAdding_paired hj
  | taking => exact judgeTaking_paired hj

theorem planOf_origin (hx : x ∈ (planOf dir c s inside es).result) :
    x ∈ inside ∨ x ∈ es := by
  cases dir with
  | adding => exact augment_origin hx
  | taking => exact .inl (reduce_origin hx)

theorem planOf_separators (hxs : ∀ x ∈ inside, s.Typed x) (hes : ∀ e ∈ es, s.Typed e) : ∀ q ∈ (planOf dir c s inside es).pairs,
    q.1 ∈ inside ∧ q.2 ∈ es ∧ sepKey c.form.separator s q.1 = none ∧ sepKey c.form.separator s q.2 = none := by
  intro q hq
  obtain ⟨hx,he,hboth⟩ := planOf_pairs q hq
  obtain ⟨b,hb,hiff⟩ := bothSeparate_ok c.form (hxs _ hx) (hes _ he)
  obtain rfl : true = b := Except.ok.inj (hboth.symm.trans hb)
  exact ⟨hx,he,hiff.mp rfl⟩

theorem settledItems_zero (hform : form ≠ .dotted) : settledItems form inside s = .ok 0 := by
  unfold settledItems
  rw [if_neg (by simp [hform])]
  rfl

/-- Items in front of a plan that stay as they are. -/
def Plan.behind (kept : List Value) (plan : Plan Value) : Plan Value := ⟨kept.map .keep ++ plan.moves,plan.fault⟩

@[simp] theorem Plan.behind_result (kept : List Value) (plan : Plan Value) :
    (plan.behind kept).result = kept ++ plan.result := by
  unfold Plan.result behind
  rw [List.flatMap_append,List.flatMap_map]
  simp [Move.result]

@[simp] theorem Plan.behind_pairs (kept : List Value) (plan : Plan Value) : (plan.behind kept).pairs = plan.pairs := by
  unfold Plan.pairs behind
  rw [List.filterMap_append,List.filterMap_map]
  simp [Function.comp_def,Move.pair?]

theorem Plan.behind_fault (kept : List Value) (plan : Plan Value) : (plan.behind kept).fault = plan.fault := rfl

theorem planFor_eq (hsettled : settledItems c.form inside s = .ok j) :
    planFor dir c inside es s = .ok ((planOf dir c s (inside.drop j) es).behind (inside.take j)) := by
  change (settledItems c.form inside s).bind _ = _
  rw [hsettled]
  cases dir <;> rfl

theorem items_list_ok : items (.list l) s = .ok xs ↔ ∃ c, s.lists[l.index]? = some c ∧ c.items = xs := by
  change (do return (← Read.list l).items : Read (List Value)) s = .ok xs ↔ _
  simp only [Read.bind_ok,Read.list_ok,Read.pure_ok]

/-- A store with other items in a list. -/
def Store.holding (s : Store) (l : ListId) (xs : List Value) : Store := s.mapList l (fun c => { c with items := xs })

theorem Store.frame_holding (h : F.list l) (xs : List Value) : s.Frame F (s.holding l xs) :=
  frame_mapList (fun _ => ⟨rfl,rfl,rfl,rfl,fun hn => absurd h hn⟩)

theorem Store.holding_items {flavour : Flavour} (h : s.HasItems l flavour xs) (ys : List Value) :
    (s.holding l ys).HasItems l flavour ys := by
  obtain ⟨c,hc,hflavour,-⟩ := h
  refine ⟨{ c with items := ys },?_,hflavour,rfl⟩
  rw [holding,mapList_get,if_pos rfl,hc]
  rfl

/-- What a pass over the list behind a view does when nothing goes wrong. -/
theorem bringInStep_ok {r : Unit}
    (hview : ∀ es u, expectedItems w p s = .ok es u → ∃ c, u.views[w.index]? = some c ∧ c.target = .list l ∧
      ∀ lc, u.lists[l.index]? = some lc → settledItems c.form lc.items u = .ok j) (h : bringInStep fuel dir w p s = .ok r t) :
    ∃ es u c lc, expectedItems w p s = .ok es u ∧ u.views[w.index]? = some c ∧ u.lists[l.index]? = some lc ∧
      (planOf dir c u (lc.items.drop j) es).fault = none ∧
      alignSeparators c.form (planOf dir c u (lc.items.drop j) es).pairs p
        (u.holding l (lc.items.take j ++ (planOf dir c u (lc.items.drop j) es).result)) = .ok () t := by
  cases fuel with
  | zero => exact absurd h Edit.throw_ok
  | succ fuel =>
    simp only [bringInStep,Edit.bind_ok,Edit.read_ok,Read.view_ok] at h
    obtain ⟨es,u,hes,c,_,⟨hc,rfl⟩,inside,_,⟨hinside,rfl⟩,plan,_,⟨hplan,rfl⟩,h⟩ := h
    obtain ⟨c',hc',htarget,hsettled⟩ := hview es u hes
    rw [hc] at hc'
    cases hc'
    rw [htarget] at hinside h
    obtain ⟨lc,hlc,rfl⟩ := items_list_ok.mp hinside
    rw [planFor_eq (hsettled lc hlc)] at hplan
    cases hplan
    simp only [Edit.bind_ok,Edit.updateList_ok,Plan.behind_result,Plan.behind_pairs] at h
    obtain ⟨_,_,rfl,_,v,halign,h⟩ := h
    refine ⟨es,u,c,lc,hes,hc,hlc,?_⟩
    rw [Plan.behind_fault] at h
    cases hfault : (planOf dir c u (lc.items.drop j) es).fault with
    | some fault =>
      rw [hfault] at h
      exact absurd h Edit.throw_ok
    | none =>
      rw [hfault] at h
      obtain ⟨-,rfl⟩ := Edit.pure_ok.mp h
      exact ⟨rfl,halign⟩

/-- A pass whose plan has no fault ends as the separators that it keeps are aligned. -/
theorem bringInStep_known {u : Store} {lc : ListCell} (hes : expectedItems w p s = .ok es u)
    (hc : u.views[w.index]? = some c) (htarget : c.target = .list l) (hlc : u.lists[l.index]? = some lc)
    (hsettled : settledItems c.form lc.items u = .ok j) (hfault : (planOf dir c u (lc.items.drop j) es).fault = none) :
    bringInStep (fuel + 1) dir w p s = alignSeparators c.form (planOf dir c u (lc.items.drop j) es).pairs p
      (u.holding l (lc.items.take j ++ (planOf dir c u (lc.items.drop j) es).result)) := by
  have hinside : items c.target u = .ok lc.items := by
    rw [htarget]
    exact items_list_ok.mpr ⟨lc,hlc,rfl⟩
  unfold bringInStep
  rw [Edit.bind_known hes,Edit.view_known hc,Edit.read_known hinside,Edit.read_known (planFor_eq hsettled),htarget]
  change (alignSeparators c.form (Plan.behind _ _).pairs >>= _) p (u.holding l (Plan.behind _ _).result) = _
  rw [Plan.behind_pairs,Plan.behind_result,Plan.behind_fault,hfault,Edit.run_bind]
  cases alignSeparators c.form _ p _ <;> rfl

/-- One pass over the list behind a view, whose first items are settled. What it leaves of the others is told
by their keys. -/
structure Passed (key : Value → Option Value) (w : ViewId) (l : ListId) (settled L : List Value) (dir : Direction)
    (s t : Store) (E : List Value) (plan : Plan Value) : Prop where
  frame : s.Frame (.editing w l) t
  behind : t.HasItems l .nodes (settled ++ plan.result)
  origin : ∀ x ∈ plan.result, x ∈ L ∨ x ∈ E
  fits : ∀ {ys ds}, List.Forall₂ plan.Fits ys ds → ys.map key = ds.map key
  adding : dir = .adding → Augmented key L E plan
  taking : dir = .taking → Reduced key L E plan

section Pass
variable {fuel : Nat} {dir : Direction} {form : ViewForm} {w : ViewId} {l : ListId} {settled L : List Value} {r : Unit}
  (hlist : s.HasItems l .nodes (settled ++ L)) (hL : ∀ x ∈ L, s.Typed x)
  (hexpected : ∀ es u, expectedItems w p s = .ok es u → s.Frame .attributes u ∧ ∀ e ∈ es, u.Typed e)
  (hsettled : ∀ u, s.Frame .attributes u → settledItems form (settled ++ L) u = .ok settled.length)
  (halign : ∀ pairs, Within .attributes (alignSeparators form pairs)) (h : bringInStep fuel dir w p s = .ok r t)
include hlist hL hexpected hsettled halign h

/-- A pass compares items by keys that stay the same while it runs. -/
theorem bringInStep_keyed (key : Store → Value → Option Value) (hc : s.views[w.index]? = some c)
    (htarget : c.target = .list l) (hform : c.form = form)
    (hcompares : ∀ u d E, s.Frame .attributes u → d.form = form → d.items = c.items → (∀ x ∈ L, u.Typed x) →
      (∀ e ∈ E, u.Typed e) → Compares (judgeOf dir d u) (key u) L E)
    (hkey : ∀ u v x, u.Typed x → u.Frame (.editing w l) v → key v x = key u x) :
    ∃ E u plan, expectedItems w p s = .ok E u ∧ Passed (key t) w l settled L dir s t E plan ∧
      (∀ q ∈ plan.pairs, q.1 ∈ L ∧ q.2 ∈ E ∧ sepKey form.separator u q.1 = none ∧ sepKey form.separator u q.2 = none) ∧
      alignSeparators form plan.pairs p (u.holding l (settled ++ plan.result)) = .ok () t := by
  subst hform
  have hitems : ∀ {u}, s.Frame .attributes u → u.HasItems l .nodes (settled ++ L) :=
    fun hF => hlist.frame hF id
  have hsame : ∀ {u}, s.Frame .attributes u → ∃ d, u.views[w.index]? = some d ∧ d.target = .list l ∧
      d.form = c.form ∧ d.items = c.items := by
    intro u hF
    obtain ⟨d,hd,hkeeps⟩ := hF.view hc
    exact ⟨d,hd,hkeeps.target.trans htarget,hkeeps.form,hkeeps.items id⟩
  obtain ⟨E,u,d,lc,hes,hd,hlc,hfault,haligned⟩ := bringInStep_ok (j := settled.length) (fun es u hes => by
    have hF := (hexpected es u hes).1
    obtain ⟨d,hd,htarget,hdform,-⟩ := hsame hF
    refine ⟨d,hd,htarget,fun lc hlc => ?_⟩
    obtain ⟨lc',hlc',-,hlcitems⟩ := hitems hF
    cases hlc.symm.trans hlc'
    rw [hdform,hlcitems]
    exact hsettled u hF) h
  obtain ⟨hF,hE⟩ := hexpected E u hes
  obtain ⟨d',hd',-,hdform,hditems⟩ := hsame hF
  cases hd.symm.trans hd'
  have hlist := hitems hF
  obtain ⟨lc',hlc',-,hlcitems⟩ := id hlist
  cases hlc.symm.trans hlc'
  rw [hlcitems,List.drop_left,List.take_left,hdform] at haligned
  rw [hlcitems,List.drop_left] at hfault
  have hL : ∀ x ∈ L, u.Typed x := fun x hx => (hL x hx).frame hF Freedom.type_kept
  generalize hplan : planOf dir d u L E = plan at hfault haligned
  have hstays := (Edit.Meets.frame_ok (halign plan.pairs) trivial haligned).1
  have hF' : u.Frame (.editing w l) t :=
    (Store.frame_holding rfl _).trans (hstays.mono (Freedom.attributes_le w l))
  have hcompares : Compares (judgeOf dir d u) (key t) L E :=
    (hcompares u d E hF hdform hditems hL hE).congr (fun x hx => hkey u t x (hL x hx) hF') (fun e he => hkey u t e (hE e he) hF')
  have hadding : dir = .adding → Augmented (key t) L E plan := by
    rintro rfl
    exact hplan ▸ augment_augmented hcompares
  have htaking : dir = .taking → Reduced (key t) L E plan := by
    rintro rfl
    exact hplan ▸ reduce_reduced hcompares
  refine ⟨E,u,plan,hes,?_,?_,haligned⟩
  · refine ⟨(hF.mono (Freedom.attributes_le w l)).trans hF',?_,?_,?_,hadding,htaking⟩
    · exact (Store.holding_items hlist _).frame hstays id
    · exact fun x hx => planOf_origin (hplan ▸ hx)
    · exact Plan.PairsIn.keys (hplan ▸ planOf_pairsIn) hcompares
  · rw [← hplan,← hdform]
    exact planOf_separators hL hE

theorem bringInStep_passed (hform : form.lineBased = false)
    (hview : ∃ c, s.views[w.index]? = some c ∧ c.target = .list l ∧ c.form = form) :
    ∃ E u plan, expectedItems w p s = .ok E u ∧ Passed (sepKey form.separator t) w l settled L dir s t E plan ∧
      (∀ q ∈ plan.pairs, q.1 ∈ L ∧ q.2 ∈ E ∧ sepKey form.separator u q.1 = none ∧ sepKey form.separator u q.2 = none) ∧
      alignSeparators form plan.pairs p (u.holding l (settled ++ plan.result)) = .ok () t := by
  obtain ⟨c,hc,htarget,hcform⟩ := hview
  refine bringInStep_keyed hlist hL hexpected hsettled halign h (sepKey form.separator) hc htarget hcform ?_ ?_
  · intro u d E _ hdform _ hL hE
    subst hdform
    exact compares_judgeOf hform hL hE dir
  · intro u v x hx hF
    exact sepKey_frame hx hF (Freedom.editing_type w l)

end Pass

/-- A pass keeps to what its parts keep to, also when it fails. -/
theorem bringInStep_gives {K : Store → Prop} (hK : Stable F K)
    (hview : ∀ s, K s → ∃ c, s.views[w.index]? = some c ∧ c.target = .list l ∧ c.form = form) (hl : F.list l)
    (hexpected : Gives F K (fun _ _ => True) (expectedItems w))
    (halign : ∀ pairs, Gives F K (fun _ _ => True) (alignSeparators form pairs)) (fuel : Nat) (dir : Direction) :
    Gives F K (fun _ _ => True) (bringInStep fuel dir w) := by
  cases fuel with
  | zero => exact .throw _
  | succ fuel =>
    have hmore : ∀ {α : Type} {e : Edit α}, Gives F K (fun _ _ => True) e →
        Gives F (fun s => K s ∧ True) (fun _ _ => True) e :=
      fun h => h.and (fun _ _ h _ => h)
    unfold bringInStep
    refine .bind hexpected (fun es => .ask (fun u c hu hc => .ask (fun _ inside _ _ => .ask (fun _ plan _ _ => ?_))))
    obtain ⟨d,hd,htarget,rfl⟩ := hview u hu.1
    cases (Read.view_ok.mp hc).symm.trans hd
    rw [htarget]
    have hupdate : Gives F K (fun _ _ => True)
        (Edit.updateList l (fun c => { c with items := plan.result })) :=
      .of_within hK (.updateItems hl (fun _ => plan.result)) (fun _ _ _ _ _ _ => trivial)
    refine .bind (hmore hupdate) (fun _ => .bind ((hmore (halign _)).and (fun _ _ h _ => h)) (fun _ => ?_))
    split
    · exact .throw _
    · exact .pure (fun _ _ => trivial)

end CodeTree
