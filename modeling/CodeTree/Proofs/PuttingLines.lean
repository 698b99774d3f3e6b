import CodeTree.Proofs.FreshLines
import CodeTree.Proofs.Replacing

/-! # Lines put into a new list

A call puts values into a view of lines of a new document. What the values stand for are new nodes, so the call leaves
the document as it is until the list behind the view is brought in step, and then all of the list has its place among
what is expected.
-/
namespace CodeTree
variable {p : Parser} {o s t u : Store} {top w : ViewId} {l root : ListId} {form : ViewForm} {v x : Value}
  {D L xs : List Value} {height : Nat} {leading : Bool} {n : NodeId} {previous : Option Value} {put : Putting}

section Calls

/-- The calls that put values into a view. -/
inductive Putting where
  | insert (i : Int)
  | append
  | extend

namespace Putting

def run (w : ViewId) (v : Value) : Putting → Edit Value
  | insert i => call (.view w) "insert" (.ofList [.int i,v])
  | append => call (.view w) "append" (.ofList [v])
  | extend => call (.view w) "extend" (.ofList [v])

/-- The place of what is put in, among so many items. -/
def index (length : Nat) : Putting → Nat
  | insert i => gap length i
  | append | extend => length

/-- Items with others put in. -/
def among (put : Putting) (xs D : List Value) : List Value :=
  D.take (put.index D.length) ++ (xs ++ D.drop (put.index D.length))

/-- What is done before the list behind the view is brought in step: a value is converted, and the view shows what it
stands for. -/
def prepare (w : ViewId) (v : Value) : Putting → Edit Unit
  | insert i => do
    let item ← itemFrom w v
    Edit.updateView w (fun c => { c with items := insertAt i item c.items })
  | append => do
    let item ← itemFrom w v
    Edit.updateView w (fun c => { c with items := c.items ++ [item] })
  | extend => do
    if (← Read.view w).form == .decorators then extendEach w (← items v)
    else
      let new ← itemsFrom w v
      Edit.updateView w (fun c => { c with items := c.items ++ new })

theorem among_end (hput : put.index D.length = D.length) (xs : List Value) : put.among xs D = D ++ xs := by
  rw [among,hput,List.take_length,List.drop_length,List.append_nil]

theorem mem_among : x ∈ put.among xs D ↔ x ∈ D ∨ x ∈ xs := by
  have hsplit := List.take_append_drop (put.index D.length) D
  have hD : x ∈ D ↔ x ∈ D.take (put.index D.length) ∨ x ∈ D.drop (put.index D.length) := by
    rw [← List.mem_append,hsplit]
  rw [among,List.mem_append,List.mem_append,hD]
  tauto

theorem head_among (hx : x ∈ (put.among xs D).head?) : x ∈ xs ∨ x ∈ D.head? := by
  unfold among at hx
  cases hi : put.index D.length with
  | zero =>
    rw [hi,List.take_zero,List.drop_zero,List.nil_append] at hx
    cases xs with
    | nil => exact .inr hx
    | cons y ys => exact .inl (List.mem_of_mem_head? hx)
  | succ i =>
    cases D with
    | nil => exact .inl (List.mem_of_mem_head? (by simpa using hx))
    | cons d D =>
      rw [hi] at hx
      exact .inr hx

end Putting

/-- A value that leads to no node, list or view of a store. -/
structure Store.Foreign (o s : Store) (v : Value) : Prop where
  offers : o.Offers s v
  items : ∀ vs, CodeTree.items v s = .ok vs → ∀ x ∈ vs, x.Outside o

theorem gap_length (n : Nat) : gap n n = n := by
  unfold gap
  rw [if_neg (by omega)]
  omega

/-- A call is its preparation and one pass over the list. -/
theorem Putting.run_prepared (hlist : o.LineList w l form) (hs : o.Spared w D s) (hv : o.Foreign s v)
    (h : put.prepare w v p s = .ok () t) : (∃ xs, o.Spared w (put.among xs D) t) ∧
      ∃ fuel, ∀ u, bringInStep (fuel + 1) .adding w p t = .ok () u → put.run w v p s = .ok .none u := by
  obtain ⟨c,hc,hitems⟩ := id hs.shown
  have hafter : ∀ {u}, bringInStep (4 * t.depth + 63 + 1) .adding w p t = .ok () u → afterEdit .adding w p t = .ok () u :=
    fun hpass => Edit.bind_ok.mpr ⟨_,t,rfl,hpass⟩
  cases put with
  | insert i =>
    obtain ⟨x,t₁,hx,h⟩ := Edit.bind_ok.mp h
    have ht₁ := itemFrom_spares hlist hs hv.offers hx
    refine ⟨⟨[x],?_⟩,4 * t.depth + 63,fun u hpass => ?_⟩
    · rw [Edit.updateView_ok.mp h]
      have hshow := ht₁.show (insertAt i x)
      rwa [insertAt_eq] at hshow
    · change call (.view w) "insert" (.ofList [.int i,v]) p s = .ok .none u
      rw [call_view (by decide) hc rfl]
      refine Edit.bind_ok.mpr ⟨(.int i,v),s,rfl,Edit.bind_ok.mpr ⟨x,t₁,hx,Edit.bind_ok.mpr ⟨i,t₁,rfl,?_⟩⟩⟩
      exact Edit.bind_ok.mpr ⟨(),t,h,Edit.bind_ok.mpr ⟨(),u,hafter hpass,rfl⟩⟩
  | append =>
    obtain ⟨x,t₁,hx,h⟩ := Edit.bind_ok.mp h
    have ht₁ := itemFrom_spares hlist hs hv.offers hx
    have ht := Edit.updateView_ok.mp h
    refine ⟨⟨[x],?_⟩,4 * s.depth + 62,fun u hpass => ?_⟩
    · rw [among_end rfl,ht]
      exact ht₁.show (· ++ [x])
    · change call (.view w) "append" (.ofList [v]) p s = .ok .none u
      rw [call_view (by decide) hc rfl]
      refine Edit.bind_ok.mpr ⟨v,s,rfl,Edit.bind_ok.mpr ⟨(),u,?_,rfl⟩⟩
      refine Edit.bind_ok.mpr ⟨c,s,Edit.read_ok.mpr ⟨Read.view_ok.mpr hc,rfl⟩,?_⟩
      refine Edit.bind_ok.mpr ⟨_,s,rfl,?_⟩
      change insertItem (4 * s.depth + 63 + 1) w c.items.length v p s = .ok () u
      unfold insertItem
      refine Edit.bind_ok.mpr ⟨x,t₁,hx,Edit.bind_ok.mpr ⟨(),t,?_,hpass⟩⟩
      refine Edit.updateView_ok.mpr (ht.trans ?_)
      rw [mapView_items (f := (· ++ [x])) ht₁.shown,mapView_items (f := insertAt c.items.length x) ht₁.shown,insertAt_eq,
        hitems,gap_length,List.take_length,List.drop_length]
  | extend =>
    replace h := (Edit.view_known hc).symm.trans h
    have hextend : ∀ {u}, extendView w v p s = .ok () u → run w v extend p s = .ok .none u := by
      intro u hu
      change call (.view w) "extend" (.ofList [v]) p s = .ok .none u
      rw [call_view (by decide) hc rfl]
      exact Edit.bind_ok.mpr ⟨v,s,rfl,Edit.bind_ok.mpr ⟨(),u,hu,rfl⟩⟩
    cases hform : c.form == .decorators with
    | true =>
      rw [hform] at h
      obtain ⟨vs,hvs,h⟩ := Edit.ask_ok.mp h
      refine ⟨?_,4 * t.depth + 63,fun u hpass => hextend ((Edit.view_known hc).trans ?_)⟩
      · obtain ⟨xs,hxs⟩ := extendEach_spares hlist (hv.items vs hvs) hs h
        exact ⟨xs,by rwa [among_end rfl]⟩
      · rw [hform]
        exact Edit.ask_ok.mpr ⟨vs,hvs,Edit.bind_ok.mpr ⟨(),t,h,hafter hpass⟩⟩
    | false =>
      rw [hform] at h
      obtain ⟨new,t₁,hnew,h⟩ := Edit.bind_ok.mp h
      refine ⟨⟨new,?_⟩,4 * t.depth + 63,fun u hpass => hextend ((Edit.view_known hc).trans ?_)⟩
      · rw [among_end rfl,Edit.updateView_ok.mp h]
        exact (itemsFrom_spares hlist hs hv.offers hv.items hnew).show (· ++ new)
      · rw [hform]
        exact Edit.bind_ok.mpr ⟨new,t₁,hnew,Edit.bind_ok.mpr ⟨(),t,h,hafter hpass⟩⟩

end Calls

section Placing

theorem shownLines_congr {blank blank' : Value → Bool} (hL : ∀ x ∈ L, blank x = blank' x)
    (hprevious : ∀ q ∈ previous, blank q = blank' q) :
    shownLines blank leading previous L = shownLines blank' leading previous L := by
  induction L generalizing previous with
  | nil => rfl
  | cons y L ih =>
    have hy := hL y List.mem_cons_self
    have hrest : shownLines blank leading (some y) L = shownLines blank' leading (some y) L :=
      ih (List.forall_mem_cons.mp hL).2 (by rintro _ ⟨⟩; exact hy)
    rw [shownLines,shownLines,hrest,hy]
    cases previous with
    | none => rfl
    | some q => rw [Option.elim_some,Option.elim_some,hprevious q rfl]

theorem shownLines_subset {blank : Value → Bool} (hx : x ∈ shownLines blank leading previous L) :
    x ∈ L ∨ previous = some x := by
  induction L generalizing previous with
  | nil => cases hx
  | cons y L ih =>
    rw [shownLines,List.mem_append] at hx
    rcases hx with hx | hx
    · split at hx
      · cases previous with
        | none =>
          cases leading with
          | true => exact .inl (List.mem_cons.mpr (.inl (List.mem_singleton.mp hx)))
          | false => cases hx
        | some q =>
          rw [Option.elim_some] at hx
          split at hx
          · exact .inr (congrArg some (List.mem_singleton.mp hx).symm)
          · cases hx
      · exact .inl (List.mem_cons.mpr (.inl (List.mem_singleton.mp hx)))
    · rcases ih hx with hx | hx
      · exact .inl (List.mem_cons_of_mem _ hx)
      · cases hx
        exact .inl List.mem_cons_self

theorem head_shownLines {blank : Value → Bool} (hL : ∀ y ∈ L.head?, blank y = false)
    (hx : x ∈ (shownLines blank leading none L).head?) : blank x = false := by
  cases L with
  | nil => cases hx
  | cons y L =>
    have hy := hL y rfl
    rw [shownLines,hy] at hx
    cases hx
    exact hy

theorem Store.Goes.carries {k : Kind} {type : Value} (h : o.Goes x k type) (hs : o.Carries s) : s.Goes x k type := by
  obtain ⟨n,c,rfl,hc,hk,htype⟩ := h
  exact ⟨n,c,rfl,hs.node hc,hk,htype⟩

section Sorts
variable {k : Kind} {type : String} (h : s.Goes x k (.text type))
include h

theorem Store.Goes.blank : s.blank x = (type == "endl") := by
  rw [Store.blank,h.sepKey]
  cases hreads : (Value.text type).reads "endl" <;> exact hreads.symm

theorem Store.Goes.brings : s.brings x = (type == "function" || type == "class") := by
  rw [Store.brings,h.typeOf]

end Sorts

theorem word_brings (k : Kind) : (k.word == "function" || k.word == "class") = (k == .classDef) := by cases k <;> rfl

/-- A node that came after those of a store, and is neither a line end nor a class. -/
def Store.NewLine (o s : Store) (x : Value) : Prop :=
  ∃ n k, x = .node n ∧ o.nodes.size ≤ n.index ∧ s.Goes x k (.text k.word) ∧ k ≠ .endl ∧ k ≠ .classDef

theorem Store.NewLine.line (h : o.NewLine s x) : s.Typed x ∧ s.blank x = false ∧ s.brings x = false := by
  obtain ⟨n,k,-,-,hgoes,hend,hclass⟩ := h
  refine ⟨⟨k,_,hgoes⟩,?_,?_⟩
  · rw [hgoes.blank,word_endl]
    exact beq_false_of_ne hend
  · rw [hgoes.brings,word_brings]
    exact beq_false_of_ne hclass

section Fresh
variable (put : Putting) (hdoc : o.Document top root height) (hrow : o.FreshRow top w l form L)
  (hunbroken : Unbroken o.blank o.brings L) (haccepts : form.Accepts o.blank L) (hs : o.Carries s)
  (hD : D = shownLines o.blank (form == .document) none L) (hnew : ∀ x ∈ xs, o.NewLine s x)
include hdoc hrow hunbroken haccepts hs hD hnew

/-- All of a new list has its place among what is expected for its lines and new ones. -/
theorem newLines_placed : (∀ x ∈ put.among xs D, s.Typed x) ∧ form.Accepts s.blank (put.among xs D) ∧
    Unbroken s.blank s.brings (put.among xs D) ∧
    (L.map (lineKey (put.among xs D) s)).Sublist (form.expected s.blank s.brings (put.among xs D)) := by
  have hsame : ∀ x ∈ L, s.Typed x ∧ s.blank x = o.blank x ∧ s.brings x = o.brings x := by
    intro x hx
    obtain ⟨m,rfl,hm⟩ := hrow.members x hx
    obtain ⟨k,hgoes⟩ := hdoc.goes hm
    have hgoes' := hgoes.carries hs
    exact ⟨⟨k,_,hgoes'⟩,hgoes'.blank.trans hgoes.blank.symm,hgoes'.brings.trans hgoes.brings.symm⟩
  have hshown : D = shownLines s.blank (form == .document) none L :=
    hD.trans (shownLines_congr (fun x hx => (hsame x hx).2.1.symm) (by rintro _ ⟨⟩))
  have hDL : ∀ x ∈ D, x ∈ L := by
    intro x hx
    exact (shownLines_subset (hshown ▸ hx)).resolve_right (by rintro ⟨⟩)
  have htyped : ∀ x ∈ put.among xs D, s.Typed x := by
    intro x hx
    rcases Putting.mem_among.mp hx with hx | hx
    · exact (hsame x (hDL x hx)).1
    · exact (hnew x hx).line.1
  have hbroken : Unbroken s.blank s.brings L := by
    refine List.IsChain.imp_of_mem_imp (fun x y hx hy hlink hbrings => ?_) hunbroken
    rw [(hsame x hx).2.2] at hbrings
    rw [(hsame y hy).2.1]
    exact hlink hbrings
  have hstart : form.Accepts s.blank L := by
    intro hform y hy
    rw [(hsame y (List.mem_of_mem_head? hy)).2.1]
    exact haccepts hform y hy
  have hlines : ∀ x ∈ xs, s.blank x = false ∧ s.brings x = false := fun x hx => (hnew x hx).line.2
  refine ⟨htyped,?_,?_,?_⟩
  · intro hform y hy
    rcases Putting.head_among hy with hy | hy
    · exact (hlines y hy).1
    · exact head_shownLines (hstart hform) (hshown ▸ hy)
  · refine unbroken_inserted ?_ hlines
    rw [List.take_append_drop,hshown]
    exact unbroken_shown hbroken
  · refine lines_placed_inserted hrow.row.lineBased (keyedBy_shown hrow.nodup ?_ ?_ ?_) hbroken
      (fun _ => Store.blank_of_brings) hlines hshown (.inl hstart)
    · intro x hx hblank
      unfold lineKey
      split
      · rfl
      · rw [sepKey_endl,hblank]
        rfl
    · intro x hx hin
      exact lineKey_of_mem (Putting.mem_among.mpr (.inl (hshown ▸ hin))) (hsame x hx).1
    · intro x hx hblank hnot
      refine lineKey_eq_none.mpr ⟨?_,by rw [sepKey_endl,hblank]; rfl⟩
      obtain ⟨m,rfl,hm⟩ := hrow.members x hx
      rw [List.any_eq_false]
      intro y hy his
      rw [Value.is_node] at his
      subst his
      rcases Putting.mem_among.mp hy with hy | hy
      · exact hnot (hshown ▸ hy)
      · obtain ⟨_,_,heq,hle,-⟩ := hnew _ hy
        cases heq
        obtain ⟨_,_,_,heq,hc,-⟩ := hdoc.goes hm
        cases heq
        have hlt := Store.lt_nodes_of_get hc
        omega

end Fresh

theorem Store.countP_statements (h : s.blank (.node n) = false) :
    (s.statements L).countP (·.is (.node n)) = L.countP (·.is (.node n)) := by
  unfold Store.statements
  rw [List.countP_filterMap]
  refine List.countP_congr (fun y _ => ?_)
  rw [sepKey_endl]
  cases hy : s.blank y with
  | false => rfl
  | true =>
    rw [if_pos rfl,Value.is_node]
    refine ⟨fun hnone => (by cases hnone),?_⟩
    rintro rfl
    rw [h] at hy
    cases hy

theorem Putting.countP_among (hxs : xs.Nodup) (hx : .node n ∈ xs) (hnot : .node n ∉ D) :
    (put.among xs D).countP (·.is (.node n)) = 1 := by
  classical
  have hcount : ∀ ys : List Value, ys.countP (·.is (.node n)) = ys.count (.node n) := by
    intro ys
    refine List.countP_congr (fun y _ => ?_)
    rw [Value.is_node,beq_iff_eq]
  rw [hcount,among,List.count_append,List.count_append,List.count_eq_one_of_mem hxs hx,
    List.count_eq_zero.mpr (fun h => hnot (List.mem_of_mem_take h)),
    List.count_eq_zero.mpr (fun h => hnot (List.mem_of_mem_drop h))]

end Placing

section Aligned

/-- Values are put into a list of lines of a new document in which no line end comes right after a class and decorators
come first, and they stand for new nodes that are neither line ends nor classes. The list then contains the old one,
agrees with what is expected place by place up to line ends that are no blank lines, and has the statements that the
view shows, the new ones once each. -/
theorem put_lines_aligned {source : String} {r s₁ : Store} {put : Putting}
    (hmade : newDocument source p r = .ok (.view top) o) (hends : o.Indents top) (hlines : o.LinesIn top w l form)
    (hL : o.HasItems l .nodes L) (hD : o.ShowsItems w D)
    (hclass : L.IsChain (fun x y => hasType x "class" o = .ok true → hasType y "endl" o = .ok false))
    (hfirst : form = .decorators → ∀ y ∈ L.head?, hasType y "endl" o = .ok false) (hlater : o.Grows s)
    (hv : o.Foreign s v) (hprepared : put.prepare w v p s = .ok () s₁) (hshown : s₁.ShowsItems w (put.among xs D))
    (hnodup : xs.Nodup) (hnew : ∀ x ∈ xs, o.NewLine s₁ x) :
    ∃ E u t L', expectedItems w p s₁ = .ok E u ∧ put.run w v p s = .ok .none t ∧ t.ShowsItems w (put.among xs D) ∧
      t.HasItems l .nodes L' ∧ L.Sublist L' ∧
      List.Forall₂ (fun y e => y = e ∨ (t.OtherEnd (put.among xs D) y ∧ t.OtherEnd (put.among xs D) e)) L' E ∧
      (∀ x ∈ xs, L'.countP (·.is x) = 1) ∧ t.statements L' = t.statements (put.among xs D) := by
  obtain ⟨root,height,L₀,hdoc,hrow⟩ := newDocument_row hmade hlines
  obtain ⟨lc,hlc,hflavour,rfl⟩ := hL
  obtain ⟨lc',hlc',-,heq⟩ := hrow.items
  cases hlc.symm.trans hlc'
  subst heq
  obtain ⟨vc,hvc,hitems⟩ := id hD
  obtain ⟨vc',hvc',hitems'⟩ := hrow.shown
  cases hvc.symm.trans hvc'
  have hDshown := hitems.symm.trans hitems'
  have hgoes : ∀ x ∈ lc.items, ∃ k : Kind, o.Goes x k (.text k.word) := by
    intro x hx
    obtain ⟨m,rfl,hm⟩ := hrow.members x hx
    exact hdoc.goes hm
  have hblank : ∀ x ∈ lc.items, hasType x "endl" o = .ok false → o.blank x = false := by
    intro x hx hend
    obtain ⟨k,hk⟩ := hgoes x hx
    rw [hk.blank]
    rw [hk.hasType] at hend
    exact Except.ok.inj hend
  have hunbroken : Unbroken o.blank o.brings lc.items := by
    refine List.IsChain.imp_of_mem_imp (fun x y hx hy hlink hbrings => hblank y hy (hlink ?_)) hclass
    obtain ⟨k,hk⟩ := hgoes x hx
    rw [hk.brings,word_brings,beq_iff_eq] at hbrings
    subst hbrings
    exact hk.hasType
  have haccepts : form.Accepts o.blank lc.items := fun hform y hy => hblank y (List.mem_of_mem_head? hy) (hfirst hform y hy)
  have hspared : o.Spared w D s :=
    Store.Spared.grows ⟨.refl o,hD⟩ hlater
  obtain ⟨⟨_,hs₁⟩,fuel,hrun⟩ := Putting.run_prepared hrow.row.lineList hspared hv hprepared
  have hcarries := hs₁.carries
  obtain ⟨htyped,haccepts',hunbroken',hplaced⟩ := newLines_placed put hdoc hrow hunbroken haccepts hcarries hDshown hnew
  have hmembers : ∀ x ∈ lc.items, ∃ m, x = .node m ∧ s₁.Member top m := by
    intro x hx
    obtain ⟨m,rfl,hm⟩ := hrow.members x hx
    exact ⟨m,rfl,(hdoc.member_iff hcarries).mpr hm⟩
  obtain ⟨E,u,t,L',hexpected,hpass,hframe,hshows,hlist,hsub,hkeys,hagree⟩ := bringInStep_placed
    (hdoc.carries hcarries) (hends.carries hdoc hcarries) (hrow.row.carries hdoc hcarries)
    ⟨lc,hcarries.list hlc,hflavour,rfl⟩ hmembers hshown htyped haccepts' hplaced fuel p
  have hsame : ∀ x ∈ put.among xs D, sepKey "endl" t x = sepKey "endl" s₁ x := fun x hx =>
    sepKey_frame (htyped x hx) hframe (Freedom.editing_type w l)
  have hstatements : t.statements L' = t.statements (put.among xs D) := by
    calc t.statements L'
        = (L'.map (lineKey (put.among xs D) t)).filterMap (·.bind (sepKey "endl" t)) := by
          rw [List.filterMap_map]
          exact List.filterMap_congr (fun x _ => sepKey_lineKey _ t x)
      _ = (form.expected s₁.blank s₁.brings (put.among xs D)).filterMap (·.bind (sepKey "endl" s₁)) := by
          rw [hkeys]
          refine List.filterMap_congr (fun k hk => ?_)
          cases k with
          | none => rfl
          | some x => exact hsame x (ViewForm.mem_of_expected hk)
      _ = (put.among xs D).filterMap (sepKey "endl" s₁) :=
          form.expected_statements (sepKey_endl s₁) (fun _ => Store.blank_of_brings) hunbroken' hrow.row.lineBased haccepts'
      _ = t.statements (put.among xs D) := (List.filterMap_congr hsame).symm
  refine ⟨E,u,t,L',hexpected,hrun t hpass,hshows,hlist,hsub,hagree,fun x hx => ?_,hstatements⟩
  have hblank := (Store.blank_frame (hnew x hx).line.1 hframe (Freedom.editing_type w l)).trans (hnew x hx).line.2.1
  obtain ⟨n,-,rfl,hn,-⟩ := hnew x hx
  rw [← Store.countP_statements hblank,hstatements,Store.countP_statements hblank]
  refine Putting.countP_among hnodup hx (fun hmem => ?_)
  obtain ⟨_,_,_,heq,hc,-⟩ := hgoes _ ((shownLines_subset (hDshown ▸ hmem)).resolve_right (by rintro ⟨⟩))
  cases heq
  have hlt := Store.lt_nodes_of_get hc
  omega

/-- A line put between the lines `a -= 1` and `b`. -/
theorem put_lines_aligned_name : ∃ top o root L x t L', newDocument "a -= 1\nb" linesParser .empty = .ok (.view top) o ∧
    o.HasItems root .nodes L ∧ (Putting.insert 1).run top (.text "c") linesParser o = .ok .none t ∧
    t.HasItems root .nodes L' ∧ L.Sublist L' ∧ L'.countP (·.is x) = 1 := by
  obtain ⟨top,o,root,-,-,h,hbehind,-⟩ := twoLines_made
  have hlines : o.LinesIn top top root .document := .document hbehind
  have hcells : ∀ c ∈ o.nodes, c.kind ≠ .classDef ∧ (c.kind = .endl → ∃ x, c.stored? (.field .indent) = some (.text x)) := by
    have hall : (newDocument "a -= 1\nb").ensures linesParser .empty (fun _ o => o.nodes.all (fun c =>
        c.kind != .classDef && (c.kind != .endl || (c.stored? (.field .indent)).any (·.reads "")))) = true := by decide +kernel
    rw [Edit.ensures,h] at hall
    intro c hc
    have hone := Array.all_eq_true_iff_forall_mem.mp hall c hc
    simp only [Bool.and_eq_true,bne_iff_ne,Bool.or_eq_true,Option.any_eq_true,Value.reads_iff,exists_eq_right] at hone
    exact ⟨hone.1,fun hend => ⟨"",hone.2.resolve_left (fun hne => hne hend)⟩⟩
  obtain ⟨_,height,L,hdoc,hrow⟩ := newDocument_row h hlines
  have hends : o.Indents top := fun m c _ hc => (hcells c (Array.mem_of_getElem? hc)).2
  have hclass : L.IsChain (fun x y => hasType x "class" o = .ok true → hasType y "endl" o = .ok false) := by
    refine List.IsChain.imp_of_mem_imp (fun x y hx _ _ hclass => ?_) hrow.nodup.isChain
    obtain ⟨m,rfl,hm⟩ := hrow.members x hx
    obtain ⟨k,hk⟩ := hdoc.goes hm
    rw [hk.hasType] at hclass
    have hword : k = .classDef := by
      rw [← beq_iff_eq,← word_brings]
      exact (Bool.or_eq_true _ _).mpr (.inr (Except.ok.inj hclass))
    obtain ⟨_,c,heq,hc,hkind,-⟩ := hk
    cases heq
    exact absurd (hkind.trans hword) (hcells c (Array.mem_of_getElem? hc)).1
  obtain ⟨new,t,hbuild⟩ := builds_name (p := linesParser) "c" (.view top) (some .root) o
  have hrun := plainNodeFrom_run (.text rfl rfl : Offers linesParser (.text "c") (nameDatum "c")) hbuild
  have hspared := Store.Spared.grows ⟨.refl o,hrow.shown⟩ ((build_adds _ _ _).grows hbuild)
  obtain ⟨s₁,hs₁⟩ : ∃ s₁, s₁ = t.mapView top (fun c => { c with items := insertAt 1 (.node new) c.items }) := ⟨_,rfl⟩
  have hprepared : (Putting.insert 1).prepare top (.text "c") linesParser o = .ok () s₁ := by
    obtain ⟨c,hc,hform,-⟩ := hrow.row.view
    refine Edit.bind_ok.mpr ⟨.node new,t,Edit.ask_ok.mpr ⟨c,Read.view_ok.mpr hc,?_⟩,Edit.updateView_ok.mpr hs₁⟩
    rw [hform]
    exact hrun
  have hshown : s₁.ShowsItems top ((Putting.insert 1).among [.node new] (shownLines o.blank true none L)) := by
    have hshow := hspared.show (insertAt 1 (.node new))
    rw [insertAt_eq,← hs₁] at hshow
    exact hshow.shown
  have hnew : ∀ x ∈ [Value.node new], o.NewLine s₁ x := by
    obtain ⟨fields,k,c,hfields,hg⟩ := (Kept.of_run hbuild).grown
    cases hfields
    obtain rfl : k = .name := Option.some.inj (hg.kindOf.symm.trans (by decide +kernel))
    rintro x hx
    cases List.mem_singleton.mp hx
    exact ⟨new,.name,rfl,Nat.le_of_eq hg.first.symm,⟨new,c,rfl,hs₁ ▸ hg.cell,hg.kind,hg.type⟩,by decide,by decide⟩
  have hforeign : o.Foreign o (.text "c") := by
    refine ⟨trivial,fun vs hvs x hx => ?_⟩
    cases hvs
    obtain ⟨_,-,rfl⟩ := List.mem_map.mp hx
    trivial
  obtain ⟨E,u,t,L',-,hcall,-,hlist,hsub,-,hcount,-⟩ := put_lines_aligned h hends hlines hrow.items hrow.shown hclass
    (fun hform => by cases hform) (.refl o) hforeign hprepared hshown (List.nodup_singleton (Value.node new)) hnew
  exact ⟨top,o,root,L,.node new,t,L',h,hrow.items,hcall,hlist,hsub,hcount _ List.mem_cons_self⟩

end Aligned

end CodeTree
