import CodeTree.Proofs.BlockShifts
import CodeTree.Proofs.CommaRuns
import CodeTree.Proofs.InputForms
import CodeTree.Proofs.Outside

/-! # Assignments that fail

A value is converted before it is stored, and what a text stands for is only known when it has been parsed. By then, fields of
the node may have been set. When the text is refused these stay set. Nothing else of the document is changed.
-/
namespace CodeTree
variable {p : Parser} {o s t u : Store} {n m : NodeId} {k : Kind} {c : NodeCell} {f : Field} {form : Form} {F : Nat} {shown : Shown}
  {part : Field → Datum} {parent v r : Value} {place : Attr} {text word : String} {d : Datum} {first : Nat} {l : ListId}
  {ms : List NodeId} {sets : List (Field × Datum)} {w : ViewId} {D : List Value}

section Fresh

/-- The nodes of a list were all made after a node, and each has a tree of its own below it. -/
def Store.Follows (t : Store) (n : NodeId) (l : ListId) : Prop :=
  ∃ (c : ListCell) (ms : List NodeId) (first : Nat), t.lists[l.index]? = some c ∧ c.flavour = .nodes ∧ c.items = ms.map .node ∧
    n.index < first ∧ ∀ m ∈ ms, t.TreeFrom first t.nodes.size m

theorem buildList_finished (h : buildList d parent (some place) p s = .ok l t)
    (hl : t.lists[l.index]? = some ⟨.nodes,ms.map .node,parent,some place,[]⟩) : ∀ m ∈ ms, ∃ k, t.Finished m k := by
  obtain ⟨-,vs,ds,b,hl',hrow,-⟩ := buildList_kept h
  cases hl.symm.trans hl'
  intro m hm
  obtain ⟨i,hi⟩ := List.getElem?_of_mem (List.mem_map_of_mem hm)
  obtain ⟨d,_,_,-,hm,-⟩ := hrow.member hi
  obtain ⟨_,k,_,-,hg⟩ := hm.grown
  exact ⟨k,hg.toPlanted.finished⟩

theorem buildList_follows (h : buildList d parent (some place) p s = .ok l t) (hn : n.index < s.nodes.size) : t.Follows n l := by
  obtain ⟨-,ms,hl,hms⟩ := buildList_row (.refl s) h
  exact ⟨_,ms,s.nodes.size,hl,rfl,rfl,hn,hms.each⟩

/-- Nodes of lists are changed, but what was a tree, or finished, still is. -/
structure Store.KeepsTrees (s t : Store) : Prop where
  lists : t.lists = s.lists
  size : t.nodes.size = s.nodes.size
  finished : ∀ {n k}, s.Finished n k → t.Finished n k
  trees : ∀ {first i n}, s.TreeFrom first i n → t.TreeFrom first i n

/-- The indentation of a finished line end is set to plain data. -/
theorem setIndent_keepsTrees (hm : s.Finished m .endl) (h : setIndent (.node m) v p s = .ok () u) : s.KeepsTrees u := by
  obtain ⟨c,hc,hkind,hb,htexts,-⟩ := hm
  replace h := (Edit.node_known hc).symm.trans h
  have hplain : (!c.building && c.texts.contains .indent) = true := by
    rw [hb,htexts]
    rfl
  rw [if_pos hplain] at h
  obtain ⟨x,hx,h⟩ := Edit.ask_ok.mp h
  obtain ⟨e,rfl⟩ : ∃ e : Datum, x = .ofDatum e := by
    unfold textFieldValue at hx
    split at hx
    · exact ⟨.text _,(Read.pure_ok.mp hx).symm⟩
    · exact ⟨.int _,(Read.pure_ok.mp hx).symm⟩
    · exact ⟨.bool _,(Read.pure_ok.mp hx).symm⟩
    · obtain ⟨text,-,hx⟩ := Read.bind_ok.mp hx
      exact ⟨.text text,(Read.pure_ok.mp hx).symm⟩
  obtain rfl := Edit.updateNode_ok.mp h
  exact ⟨rfl,Store.mapNode_size _ _ _,fun hn => hn.put m _ _,fun hn => hn.indent hc hkind e⟩

theorem Store.Finished.endl (h : t.Finished m k) (hend : t.isEnd m = true) : t.Finished m .endl := by
  obtain ⟨c,hc,rfl,hcell⟩ := h
  rw [Store.isEnd,hc] at hend
  have hkind : c.kind = .endl := beq_iff_eq.mp hend
  exact ⟨c,hc,hkind,hkind ▸ hcell⟩

theorem indentLineEnds_keepsTrees {vs : List Value} (h : indentLineEnds v vs p s = .ok () u)
    (hvs : ∀ x ∈ vs, ∃ m k first i, x = .node m ∧ s.Finished m k ∧ s.TreeFrom first i m) : s.KeepsTrees u := by
  induction vs generalizing s with
  | nil =>
    obtain ⟨-,rfl⟩ := Edit.pure_ok.mp h
    exact ⟨rfl,rfl,id,id⟩
  | cons x vs ih =>
    obtain ⟨⟨m,k,_,_,rfl,hm,htree⟩,hrest⟩ := List.forall_mem_cons.mp hvs
    unfold indentLineEnds at h
    rw [Edit.read_known htree.tree.hasType_endl] at h
    split at h
    · next hend =>
      obtain ⟨_,s₁,hset,h⟩ := Edit.bind_ok.mp h
      have hkeeps := setIndent_keepsTrees (hm.endl hend) hset
      have hmore := ih h (fun y hy => by
        obtain ⟨m,k,_,_,rfl,hm,htree⟩ := hrest y hy
        exact ⟨m,k,_,_,rfl,hkeeps.finished hm,hkeeps.trees htree⟩)
      exact ⟨hmore.lists.trans hkeeps.lists,hmore.size.trans hkeeps.size,fun hn => hmore.finished (hkeeps.finished hn),
        fun hn => hmore.trees (hkeeps.trees hn)⟩
    · exact ih h hrest

theorem Store.Trails.follows {x : NodeId} {lc : ListCell} (h : s.Trails p first x l ms u) (hl : s.lists[l.index]? = some lc)
    (hflavour : lc.flavour = .nodes) (hitems : lc.items = ms.map .node) (hfirst : first ≤ s.nodes.size) (hn : n.index < first)
    (hms : ∀ m ∈ ms, s.TreeFrom first s.nodes.size m ∧ ∃ k, s.Finished m k) : u.Follows n l := by
  obtain ⟨ends,s₁,hends,-,hu⟩ := h
  have hall : ∀ m ∈ ms ++ ends, s₁.TreeFrom first s₁.nodes.size m ∧ ∃ k, s₁.Finished m k := by
    intro m hm
    rcases List.mem_append.mp hm with hm | hm
    · obtain ⟨htree,k,c,hc,hcell⟩ := hms m hm
      exact ⟨(hends.tree htree).mono hends.mark.1,k,c,hends.node hc,hcell⟩
    · obtain ⟨-,-,-,hcell,htree⟩ := hends.fresh m hm
      exact ⟨htree hfirst,_,hcell⟩
  have hmore : lc.items ++ ends.map Value.node = (ms ++ ends).map .node := by rw [List.map_append,hitems]
  rcases hu with rfl | ⟨m,v,hlast,hend,-,hset⟩
  · exact ⟨_,ms ++ ends,first,hends.list hl,hflavour,hmore,hn,fun m hm => (hall m hm).1⟩
  · obtain ⟨-,k,hm⟩ := hall m (List.mem_of_getLast? hlast)
    have hkeeps := setIndent_keepsTrees (hm.endl hend) hset
    have hl' := hends.list hl
    rw [← hkeeps.lists] at hl'
    exact ⟨_,ms ++ ends,first,hl',hflavour,hmore,hn,fun m hm => hkeeps.size ▸ hkeeps.trees (hall m hm).1⟩

theorem blockOf_follows {x : NodeId} (hn : n.index < s.nodes.size) (h : blockOf x text (.node n) (some place) p s = .ok l u) :
    u.Follows n l := by
  have hparent : ∀ m, Value.node n = .node m → m.index < s.nodes.size := by
    rintro m hm
    cases hm
    exact hn
  obtain ⟨_,_,d,s₁,ms,_,s₂,_,-,-,-,hbuild,hl,hms,-,-,haligns,htrails⟩ := blockOf_run hparent h
  have hsize := haligns.reindents.size
  refine htrails.follows (haligns.reindents.lists ▸ hl) rfl rfl ?_ hn (fun m hm => ⟨?_,?_⟩)
  · rw [hsize]
    exact ((buildList_adds _ _ _).grows hbuild).mark.1
  · rw [hsize]
    exact haligns.reindents.trees (hms.each m hm)
  · obtain ⟨k,hk⟩ := buildList_finished hbuild hl m hm
    exact ⟨k,hk.drifts haligns.frame.drifts (by simp [Freedom.indents])⟩

theorem decoratorsOf_follows (hn : n.index < s.nodes.size) (h : decoratorsOf v text parent (some place) p s = .ok l u) :
    u.Follows n l := by
  obtain ⟨indent,hindent,h⟩ := Edit.ask_ok.mp h
  obtain ⟨d,s',hparse,h⟩ := Edit.bind_ok.mp h
  obtain rfl := parseWithin_state hparse
  split at h
  · exact absurd h Edit.throw_ok
  · obtain ⟨l',s₁,hbuild,h⟩ := Edit.bind_ok.mp h
    obtain ⟨-,ms,hl,hms⟩ := buildList_row (.refl s) hbuild
    obtain ⟨filled,hfilled,h⟩ := Edit.ask_ok.mp h
    split at h
    · obtain ⟨c,hc,h⟩ := Edit.ask_ok.mp h
      cases (Read.list_ok.mp hc).symm.trans hl
      obtain ⟨_,s₂,hends,h⟩ := Edit.bind_ok.mp h
      obtain ⟨rfl,rfl⟩ := Edit.pure_ok.mp h
      have hkeeps := indentLineEnds_keepsTrees hends (fun x hx => by
        obtain ⟨m,hm,rfl⟩ := List.mem_map.mp (List.mem_of_mem_drop (List.dropLast_subset _ hx))
        obtain ⟨k,hk⟩ := buildList_finished hbuild hl m hm
        exact ⟨m,k,_,_,rfl,hk,hms.each m hm⟩)
      exact ⟨_,ms,s.nodes.size,hkeeps.lists ▸ hl,rfl,rfl,hn,fun m hm => hkeeps.size ▸ hkeeps.trees (hms.each m hm)⟩
    · obtain ⟨rfl,rfl⟩ := Edit.pure_ok.mp h
      exact buildList_follows hbuild hn
  · exact absurd h Edit.throw_ok

end Fresh

section Storing

theorem Store.Finished.hasKind (h : t.Finished n k) : t.HasKind n k := by
  obtain ⟨c,hc,hkind,-⟩ := h
  exact ⟨c,hc,hkind⟩

end Storing

section Texts

theorem setSpacing_finished (hn : s.Finished n k) (f : Field) (place : Option Attr) (present : Bool) :
    ∃ u, setSpacing n f place present p s = .ok () u ∧ u.Finished n k := by
  obtain ⟨c,hc,-⟩ := id hn
  have hgrows : ∀ {u}, s.Grows u → u.Finished n k := fun hu => hn.drifts (hu.drifts .nothing) id
  unfold setSpacing
  rw [Edit.node_known hc]
  generalize (c.building || !c.lists.contains f) = loose
  have hone : ∀ d e, s.Grows ((s.addNode d).addList e) := fun _ _ => (Store.grows_addNode _ _).trans (Store.grows_addList _ _)
  cases present with
  | true => cases loose <;> exact ⟨_,rfl,Store.Finished.put (hgrows (hone _ _)) n _ _⟩
  | false => cases loose <;> exact ⟨_,rfl,Store.Finished.put (hgrows (Store.grows_addList _ _)) n _ _⟩

end Texts

section Children

/-- The fields that are set before a value is taken. -/
def Kind.preparedBy (k : Kind) (f : Field) : Value → List (Field × Datum)
  | .text text => k.preparations f (text != "")
  | _ => []

theorem Refits.childFrom (h : Refits t n k F part s) (hF : 1 ≤ F) (hslot : .field .child f shown ∈ k.layout)
    (hreworks : k.reworks f = true → ∀ x, v ≠ .text x) : (childFrom n v (.node n) (some (.field f))).Ends p s
      (fun _ u => u.HasKind n k) (fun u => Leaves t n k F part (k.preparedBy f v) u ∧
        (s.Readies p n k .child f v → Refits t n k F (refit part (k.preparedBy f v)) u)) := by
  cases v with
  | text text =>
    have hreworks : k.reworks f = false := by
      cases hr : k.reworks f with
      | false => rfl
      | true => exact absurd rfl (hreworks hr text)
    exact (h.childOfText hF hslot hreworks text (.node n)).imp (fun _ _ hu => hu.1) (fun _ hu => hu)
  | node m =>
    exact (h.drifts (s.drifts_hung m (.node n) (some (.field f)) .nothing)).finished.hasKind
  | data d =>
    cases d with
    | record fs =>
      have hadds := build_adds (.record fs) (.node n) (some (.field f))
      exact .bind (.of_run (fun x u hrun => .pure (h.grows (hadds.grows hrun)).finished.hasKind)
        (fun fault u hrun => ⟨(h.grows (hadds.grows_error hrun)).leaves _,fun _ => h.grows (hadds.grows_error hrun)⟩))
    | _ => exact .throw ⟨h.leaves _,fun _ => h⟩
  | _ => exact .throw ⟨h.leaves _,fun _ => h⟩

end Children

section Rehanging
variable {α β : Type}

theorem Store.drifts_mapList {F : Freedom} {g : ListCell → ListCell}
    (hg : ∀ c, (g c).flavour = c.flavour ∧ (g c).items = c.items) : s.Drifts F (s.mapList l g) where
  node {_ c} hc := ⟨c,hc,.inr (.refl _ c)⟩
  list {_ c} hc := by
    rw [mapList_get,hc]
    split
    · exact ⟨_,rfl,(hg c).1,fun _ => (hg c).2⟩
    · exact ⟨_,rfl,rfl,fun _ => rfl⟩
  view hc := ⟨_,hc,rfl⟩

theorem Store.drifts_hungView (s : Store) (w : ViewId) (parent : Option Value) (place : Option Attr) (F : Freedom) :
    s.Drifts F (s.mapView w (fun c => { c with parent := parent, place := place })) where
  node {_ c} hc := ⟨c,hc,.inr (.refl _ c)⟩
  list hc := ⟨_,hc,rfl,fun _ => rfl⟩
  view {k c} hc := by
    rw [mapView_get,hc]
    split <;> exact ⟨_,rfl,rfl⟩

theorem Store.Drifts.refl (F : Freedom) (s : Store) : s.Drifts F s := (Store.Grows.refl s).drifts F

/-- An edit changes nothing that is written but what may change. -/
abbrev Touches (F : Freedom) (e : Edit α) : Prop := e.Stays (Store.Drifts F)

namespace Touches
variable {F : Freedom} {e : Edit α} {g : α → Edit β}

theorem bind (h : Touches F e) (hg : ∀ a, Touches F (g a)) : Touches F (e >>= g) :=
  Edit.Meets.bind (fun _ _ _ h h' => h.trans h') h hg

theorem pure (a : α) : Touches F (Pure.pure a : Edit α) := Edit.Meets.pure (Store.Drifts.refl F) (fun _ _ => trivial)

theorem throw (fault : Fault) : Touches F (MonadExcept.throw fault : Edit α) := Edit.Meets.throw (Store.Drifts.refl F)

theorem ask {r : Read α} (hg : ∀ a, Touches F (g a)) : Touches F (do g (← r) : Edit β) :=
  Edit.Meets.ask (Store.Drifts.refl F) (fun _ a _ _ => hg a)

theorem of_adds (h : Adds e) : Touches F e := h.reframe (fun _ _ hst => hst.drifts F)

theorem of_within (h : Within F e) : Touches F e := h.reframe (fun _ _ hst => hst.drifts)

theorem setHolder (v parent : Value) (place : Option Attr) : Touches F (setHolder v parent place) := by
  unfold CodeTree.setHolder
  cases v with
  | node n => exact fun p s _ => ⟨s.drifts_hung n parent place F,trivial⟩
  | list l =>
    refine .ask (fun c => ?_)
    split
    · exact fun p s _ => ⟨Store.drifts_mapList (fun _ => ⟨rfl,rfl⟩),trivial⟩
    · exact .throw _
  | view w => exact fun p s _ => ⟨s.drifts_hungView w (some parent) place F,trivial⟩
  | _ => exact .throw _

theorem setHolders (vs : List Value) (parent : Value) (place : Option Attr) : Touches F (setHolders parent place vs) := by
  induction vs with
  | nil => exact .pure _
  | cons v vs ih => exact .bind (.setHolder v parent place) (fun _ => ih)

/-- Putting a view around what a field holds changes nothing that is written but the field. -/
theorem wrapHeld (n : NodeId) (f : Field) : Touches (.only n (.field f)) (wrapHeld n (.field f)) := by
  have hput : ∀ v : Value, Touches (.only n (.field f)) (putAttr n (.field f) v) := fun v =>
    .of_within (.putAttr (F := .only n (.field f)) ⟨rfl,rfl⟩ v)
  have hwrap : ∀ (c : NodeCell) (form : ViewForm) (held : Value), Touches (.only n (.field f)) (do
      let w ← newViewOf form held (some (.field f))
      if !c.building && c.lists.contains f then CodeTree.setHolders (.node n) (some (.field f)) (← Read.view w).items
      putAttr n (.field f) (.view w) : Edit Unit) := by
    intro c form held
    refine .bind (.of_adds (newViewOf_adds _ _ _)) (fun w => ?_)
    split
    · exact .ask (fun vc => .bind (.setHolders _ _ _) (fun _ => hput _))
    · exact hput _
  unfold CodeTree.wrapHeld
  refine .ask (fun c => ?_)
  dsimp only
  split
  · exact .pure _
  · refine .ask (fun held => ?_)
    split
    · refine .ask (fun view => .bind (.pure _) (fun serves => ?_))
      cases serves with
      | true => exact .pure _
      | false => exact hwrap c _ _
    · exact hwrap c _ _

theorem storeList (n : NodeId) (f : Field) (v : Value) : Touches (.only n (.field f)) (storeList n f v) := by
  have hlast : Touches (.only n (.field f)) (do putAttr n (.field f) v; CodeTree.wrapHeld n (.field f) : Edit Unit) :=
    .bind (.of_within (.putAttr (F := .only n (.field f)) ⟨rfl,rfl⟩ v)) (fun _ => .wrapHeld n f)
  unfold CodeTree.storeList
  refine .ask (fun c => ?_)
  split
  · exact .ask (fun xs => .bind (.setHolders xs _ _) (fun _ => hlast))
  · exact hlast

end Touches

end Rehanging

section Lists
variable {α β : Type}

/-- New cells are made while old ones hang elsewhere, and a node stays of its kind. -/
abbrev Rehangs (n : NodeId) (k : Kind) (e : Edit α) : Prop :=
  e.Meets (fun s => s.Finished n k) (Store.Drifts .nothing) (fun _ s => s.Finished n k)

namespace Rehangs

theorem of_touches {e : Edit α} (h : Touches .nothing e) : Rehangs n k e := by
  intro p s hs
  split
  · next hrun =>
    have hu := (h.frame_ok trivial hrun).1
    exact ⟨hu,hs.drifts hu id⟩
  · next hrun => exact h.frame_error trivial hrun

theorem bind {e : Edit α} {g : α → Edit β} (h : Rehangs n k e) (hg : ∀ a, Rehangs n k (g a)) : Rehangs n k (e >>= g) :=
  Edit.Meets.bind (fun _ _ _ h h' => h.trans h') h hg

theorem pure (a : α) : Rehangs n k (Pure.pure a : Edit α) := of_touches (.pure a)

theorem throw (fault : Fault) : Rehangs n k (MonadExcept.throw fault : Edit α) := of_touches (.throw fault)

theorem ask {r : Read α} {g : α → Edit β} (hg : ∀ a, Rehangs n k (g a)) : Rehangs n k (do g (← r) : Edit β) :=
  Edit.Meets.ask (Store.Drifts.refl _) (fun _ a _ _ => hg a)

end Rehangs

variable (hslot : .field form f shown ∈ k.layout) (hlist : form.isList = true)
include hslot hlist

end Lists

section ListTexts

theorem Store.Carries.hasKind (h : t.Carries u) (hn : t.HasKind n k) : u.HasKind n k := by
  obtain ⟨c,hc,hkind⟩ := hn
  exact ⟨c,h.node hc,hkind⟩

theorem Store.Carries.drifts (h : t.Carries u) (G : Freedom) : t.Drifts G u where
  node {_ c} hc := ⟨c,h.node hc,.inr (.refl _ c)⟩
  list hc := ⟨_,h.list hc,rfl,fun _ => rfl⟩
  view hc := by
    obtain ⟨shown,hw⟩ := h.view hc
    exact ⟨_,hw,rfl⟩

theorem parseWithin_ends {before after : String} {keys : List Key} {good : Datum → Store → Prop} {bad : Store → Prop}
    (hgood : ∀ d, good d s) (hbad : bad s) : (parseWithin before text after keys).Ends p s good bad :=
  .bind (.parse (fun _ _ => .lift (fun d _ => hgood d) hbad) hbad)

theorem buildList_ends {at_ : Option Attr} {good : ListId → Store → Prop} {bad : Store → Prop}
    (hgood : ∀ l u, buildList d parent at_ p s = .ok l u → good l u) (hbad : ∀ u, s.Grows u → bad u) :
    (buildList d parent at_).Ends p s good bad :=
  .of_run hgood (fun _ u h => hbad u ((buildList_adds d parent at_).grows_error h))

section Lines
variable (hn : t.HasKind n k)
include hn

theorem lastLine_ends (hs : t.Carries s) (b : Bool) (inside : List Value) (indent : Value) :
    (if b = true then
      match inside.getLast? with
      | some last => do
        setIndent (← lastOfBody last) indent
        return l
      | none => do
        throw .outOfRange
        return l
    else pure l : Edit ListId).Ends p s (fun _ u => u.HasKind n k) (fun u => t.Carries u) := by
  split
  · split
    · refine .ask (fun x _ => .bind (.of_run (fun _ u hset => .pure ?_) (fun _ u hset => ?_))) hs
      · have hframe := (((lenient_frame (F := .indents) (fun _ => rfl)).indent x indent).frame_ok trivial hset).1
        exact stable_hasKind n k _ _ (hs.hasKind hn) hframe
      · rw [(setIndent_ends x indent).error hset]
        exact hs
    · exact .throw hs
  · exact .pure (hs.hasKind hn)

/-- Lines are built and moved to the indentation of a statement. -/
theorem shiftBuilt_ends {e : ListId → Value → ListCell → Edit ListId} (he : ∀ l indent c u, t.Carries u →
      (e l indent c).Ends p u (fun _ u => u.HasKind n k) (fun u => t.Carries u)) : (do
    let l ← buildList d parent (some place)
    let indent ← indentOf n
    if ← truth indent then
      let c ← Read.list l
      shiftLines (.more (.int (← lengthOf indent))) c.items
      e l indent c
    else return l : Edit ListId).Ends p t (fun _ u => u.HasKind n k) (fun u => t.Carries u) := by
  refine .bind (buildList_ends (fun l s hbuild => ?_) (fun _ hu => hu.carries))
  have hs : t.Carries s := ((buildList_adds _ _ _).grows hbuild).carries
  refine .ask (fun indent _ => .ask (fun b _ => ?_) hs) hs
  split
  · refine .ask (fun c hc => .ask (fun width _ => ?_) hs) hs
    obtain ⟨-,c,hc',hitems⟩ := buildList_sprung (.refl t) hbuild
    cases (Read.list_ok.mp hc).symm.trans hc'
    exact .bind ((shiftLines_reindents hitems).imp (fun _ u hu => he l indent _ u (hu.carries hs)) (fun _ hu => hu.carries hs))
  · exact .pure (hs.hasKind hn)

theorem conditionOf_ends (text : String) : (conditionOf n text parent (some place)).Ends p t (fun _ u => u.HasKind n k)
    (fun u => t.Carries u) := by
  have hrefl := Store.Carries.refl t
  refine .ask (fun whole _ => .bind (parseWithin_ends (fun d => shiftBuilt_ends hn (fun l indent c u hu => ?_)) hrefl)) hrefl
  exact .ask (fun _ _ => .ask (fun followed _ => lastLine_ends hn hu followed _ _) hu) hu

theorem handlersOf_ends (text : String) : (handlersOf n text parent (some place)).Ends p t (fun _ u => u.HasKind n k)
    (fun u => t.Carries u) := by
  have hrefl := Store.Carries.refl t
  refine .ask (fun whole _ => .bind (parseWithin_ends (fun d => shiftBuilt_ends hn (fun l indent c u hu => ?_)) hrefl)) hrefl
  refine .ask (fun last _ => .ask (fun isExcept _ => ?_) hu) hu
  dsimp only
  split
  · exact lastLine_ends hn hu true _ _
  · exact .ask (fun _ _ => .ask (fun followed _ => lastLine_ends hn hu followed _ _) hu) hu

end Lines

section Contexts

/-- A node can hold a list under a field: a view can be put around it if the field needs one. -/
def Store.Takes (t : Store) (n : NodeId) (k : Kind) (f : Field) (l : ListId) : Prop :=
  t.HasKind n k ∧ ((k.viewForm f).isSome = true → t.Follows n l)

theorem Refits.builtList (hs : Refits t n k F part s) (d : Datum) : (buildList d (.node n) (some (.field f))).Ends p s
    (fun l u => u.Takes n k f l) (Refits t n k F part) := by
  refine buildList_ends (fun l u hbuild => ⟨?_,fun _ => ?_⟩) (fun _ hu => hs.grows hu)
  · exact (hs.grows ((buildList_adds _ _ _).grows hbuild)).finished.hasKind
  · obtain ⟨c,hc,-⟩ := hs.finished
    exact buildList_follows hbuild (Store.lt_nodes_of_get hc)

theorem Refits.parsedList (hs : Refits t n k F part s) (before text after : String) (keys : List Key) :
    (do buildList (← parseWithin before text after keys) (.node n) (some (.field f)) : Edit ListId).Ends p s
      (fun l u => u.Takes n k f l) (Refits t n k F part) := .bind (parseWithin_ends (fun d => hs.builtList d) hs)

theorem listContext_cases {ctx : Context} (h : k.listContext f = some ctx) : k ≠ .classDef ∧ k ≠ .lambdaExpr ∨
    k = .classDef ∧ f = .inheritFrom ∨ k = .lambdaExpr ∧ f = .arguments := by
  unfold Kind.listContext at h
  split at h
  all_goals first | cases h; done | decide

variable (h : Refits t n k F part t) (hF : 1 ≤ F)
include h hF

/-- The text of a list: what it sets before it is parsed, and what is left when it is refused. -/
theorem Refits.listOfText (hshown : t.ShowsItems w D) (text : String) : (listOfText n text (.node n) (some (.field f))).Ends p t
    (fun l u => u.Takes n k f l) (Leaves t n k F part (k.preparations f (text != ""))) := by
  obtain ⟨c,hc,hkind,-⟩ := h.finished
  have hn := Store.lt_nodes_of_get hc
  have hnone := h.leaves (k.preparations f (text != ""))
  have hspared : t.Spared w D t := ⟨.refl t,hshown⟩
  -- A list that is built when some of the fields have been set.
  have hbuilt : ∀ {e : Edit ListId} {s sets}, sets <+: k.preparations f (text != "") →
      e.Ends p s (fun l u => u.Takes n k f l) (Refits t n k F (refit part sets)) →
      e.Ends p s (fun l u => u.Takes n k f l) (Leaves t n k F part (k.preparations f (text != ""))) :=
    fun hsets he => he.imp (fun _ _ hu => hu) (fun _ hu => ⟨_,hsets,hu⟩)
  have hwhole : (allOf text (.node n) (some (.field f))).Ends p t (fun l u => u.Takes n k f l)
      (Leaves t n k F part (k.preparations f (text != ""))) :=
    .bind (.parse (fun d _ => hbuilt List.nil_prefix (h.builtList d)) hnone)
  -- Lines that are worked on are all outside of what was there.
  have hcarried : ∀ u, t.Carries u → Leaves t n k F part (k.preparations f (text != "")) u :=
    fun u hu => (h.drifts (hu.drifts _)).leaves _
  have hlines : ∀ {e : Edit ListId}, Spares t w D e → (∀ l u, e p t = .ok l u → u.Follows n l) →
      e.Ends p t (fun l u => u.Takes n k f l) (Leaves t n k F part (k.preparations f (text != ""))) :=
    fun he hfollows => .of_run (fun l u hrun => ⟨(he.ok hspared hrun).carries.hasKind ⟨c,hc,hkind⟩,fun _ => hfollows l u hrun⟩)
      (fun _ u hrun => hcarried u (he.error hspared hspared.carries hrun))
  unfold CodeTree.listOfText
  refine .ask (fun c' hc' => ?_) hnone
  cases (Read.node_ok.mp hc').symm.trans hc
  rw [hkind]
  dsimp only
  split
  · exact hbuilt List.nil_prefix (h.parsedList _ _ _ _)
  · next hany =>
    split
    case h_1 =>
      refine .bind (parseWithin_ends (fun d => ?_) hnone)
      split
      · exact hbuilt List.nil_prefix (h.builtList _)
      · exact hbuilt List.nil_prefix (h.parsedList _ _ _ _)
    case h_2 heq =>
      cases heq
      exact (conditionOf_ends ⟨c,hc,hkind⟩ text).imp (fun _ _ hu => ⟨hu,fun hview => by cases hview⟩) hcarried
    case h_3 heq =>
      cases heq
      exact (handlersOf_ends ⟨c,hc,hkind⟩ text).imp (fun _ _ hu => ⟨hu,fun hview => by cases hview⟩) hcarried
    case h_4 | h_5 => exact hlines (decoratorsOf_spares _ _) (fun _ _ hrun => decoratorsOf_follows hn hrun)
    case h_6 heq =>
      cases heq
      refine .ask (fun x _ => .ask (fun toFile _ => .ite (fun htext => ?_) (fun _ => ?_)) hnone) hnone
      · have hsets : Kind.preparations .printStmt .value (text != "") = [(.formatting,spacing true)] := by
          rw [htext]
          rfl
        have hspacing := Prepares.setSpacing (p := p) (f := .formatting) (by decide) hF none true h
        exact .bind (hspacing.imp (fun _ s hs => hbuilt (hsets ▸ List.prefix_rfl) (hs.parsedList _ _ _ _)) (fun u hu => by rw [hsets]; exact hu))
      · obtain ⟨s,hrun,hs⟩ := setSpacing_finished (p := p) h.finished .formatting none toFile
        unfold Edit.Ends
        rw [Edit.bind_known hrun]
        refine ⟨hs.hasKind,fun _ => ⟨⟨.nodes,[],.none,none,[]⟩,[],n.index + 1,?_,rfl,rfl,Nat.lt_succ_self _,by simp⟩⟩
        exact (Store.addList_get _ _ _).trans (if_pos rfl)
    case h_7 heq =>
      cases heq
      split
      · next ctx hctx =>
        rcases listContext_cases hctx with ⟨hclass,hlambda⟩ | ⟨rfl,rfl⟩ | ⟨rfl,rfl⟩
        · rw [if_neg (by simpa using hclass),if_neg (by simpa using hlambda)]
          exact hbuilt List.nil_prefix (h.parsedList _ _ _ _)
        · have hput := Prepares.putAttr (p := p) (x := .bool (text != "")) (d := .bool (text != ""))
            (show Kind.classDef.formOf .parenthesis = some .flag by decide) (fun _ => rfl) h
          exact .bind (hput.imp (fun _ s hs => hbuilt List.prefix_rfl (hs.parsedList _ _ _ _)) (fun _ hu => hu))
        · have hspacing := Prepares.setSpacing (p := p) (f := .firstFormatting) (by decide) hF none (text != "") h
          exact .bind (hspacing.imp (fun _ s hs => hbuilt List.prefix_rfl (hs.parsedList _ _ _ _)) (fun _ hu => hu))
      · refine .ite (fun hblock => ?_) (fun _ => ?_)
        · refine .ite (fun hf => ?_) (fun _ => .ite (fun _ => hwhole) (fun _ => .throw hnone))
          exact hlines (blockOf_spares _ _) (fun _ _ hrun => blockOf_follows hn hrun)
        · exact .bind (.lift (fun _ _ => hwhole) hnone)
    case h_8 heq | h_9 heq => cases heq

end Contexts

end ListTexts

section Fails

/-- The text for where something is printed to changes nothing that is written but the statement. -/
theorem Touches.preparePrint (n : NodeId) (text : String) (parent : Value) (place : Option Attr) :
    Touches (.own n) (preparePrint n text parent place) := by
  have hspacing : ∀ present, Touches (.own n) (setSpacing n .formatting none present) := fun present =>
    .of_within (.setSpacing (F := .own n) ⟨rfl,by decide⟩ none present)
  have hparse : ∀ ctx : Context, Touches (.own n) (ctx.parse text) := fun _ => .of_adds (.bind (.parse _) (fun _ => .lift _))
  have hbuild : ∀ d : Datum, Touches (.own n) (build d parent place) := fun d => .of_adds (build_adds d _ _)
  have hstore : ∀ (xs : List Value) (r : Value), Touches (.own n) (do
      CodeTree.storeList n .value (.list (← newLooseList xs))
      return r : Edit Value) := by
    refine fun xs r => .bind (.of_adds (Adds.newList _)) (fun l => .bind ?_ (fun _ => .pure _))
    exact (storeList n .value _).reframe (fun _ _ h => h.mono (fun _ _ h => ⟨h.1,by rw [h.2]; decide⟩) (fun _ h => h))
  unfold CodeTree.preparePrint
  have hnone : ∀ present, Touches (.own n) (do setSpacing n .formatting none present; return .none : Edit Value) :=
    fun present => .bind (hspacing present) (fun _ => .pure _)
  refine .ask (fun held => .ask (fun filled => ?_))
  split
  · exact .bind (hspacing true) (fun _ => .bind (hparse _) (fun d => .bind (hbuild d) (fun _ => .pure _)))
  · split
    · refine .bind (hspacing true) (fun _ => .bind (hparse _) (fun d => .bind (hbuild d) (fun m => ?_)))
      refine .ask (fun value => .ask (fun nodes => .ask (fun inside => ?_)))
      split
      · exact .pure _
      · refine .ask (fun isComma => ?_)
        split
        · exact .bind (hbuild _) (fun comma => .ask (fun value => .ask (fun shown => hstore _ _)))
        · exact .pure _
    · refine .ask (fun nodes => .ask (fun inside => ?_))
      split
      · refine .ask (fun isComma => ?_)
        split
        · exact .bind (hspacing true) (fun _ => hstore _ _)
        · exact hnone false
      · exact hnone false

end Fails

section Branches

theorem Store.Drifts.forget {F : Freedom} (h : t.Drifts F u) (hattr : ∀ {m a}, F.attr m a → t.nodes.size ≤ m.index)
    (hlist : ∀ l, ¬ F.list l) : t.Drifts .nothing u where
  node {m c} hc := by
    have hm : ∀ a, ¬ F.attr m a := fun a h => Nat.not_le.mpr (Store.lt_nodes_of_get hc) (hattr h)
    obtain ⟨d,hd,hkeeps⟩ := h.keeps hc hm
    exact ⟨d,hd,.inr hkeeps⟩
  list {l c} hc := by
    obtain ⟨d,hd,hflavour,hitems⟩ := h.list hc
    exact ⟨d,hd,hflavour,fun _ => hitems (hlist l)⟩
  view := h.view

end Branches

section Documents
variable {whole : Datum} {keys : List Key} {fields : List (String × Datum)} {fault : Fault}

/-- A document as it was, or with the first few of some fields of a record set to what they were not, and with all of them set
if they are ready. -/
def Datum.PartlySet (whole : Datum) (keys : List Key) (sets : List (Field × Datum)) (ready : Prop) (after : Datum) : Prop :=
  (after = whole ∨ after ≠ whole ∧ ∃ fields done, whole.follow keys = .ok (.record fields) ∧ done <+: sets ∧
    resetFields fields done ≠ fields ∧ after = whole.graft keys (.record (resetFields fields done))) ∧
  (ready → ∃ fields, whole.follow keys = .ok (.record fields) ∧ after = whole.graft keys (.record (resetFields fields sets)))

theorem Seated.leaves (hseat : Seated p w t whole keys n c fields F) (hk : c.kind ≠ .int) (hwhole : snapshot (.view w) t = .ok whole)
    (hkeys : ∀ i, .index i ∈ keys → 0 ≤ i) (h : Leaves t n c.kind (F + 1) (settledParts c.kind fields) sets u) {ready : Prop}
    (hready : ready → Refits t n c.kind (F + 1) (refit (settledParts c.kind fields) sets) u) :
    ∃ after, snapshot (.view w) u = .ok after ∧ whole.PartlySet keys sets ready after := by
  obtain ⟨done,hdone,hu⟩ := h
  obtain ⟨_,_,_,_,hplanted⟩ := hseat.planted
  have hfollow : whole.follow keys = .ok (.record (settledFor c.kind fields)) := by rw [hseat.follow,settled_record hplanted.kindOf hk]
  have hbefore : snapshot (.view w) t = .ok (whole.graft keys (.record (resetFields (settledFor c.kind fields) []))) :=
    hseat.reset (G := 0) hk (hseat.refits hk) (Nat.le_succ _)
  have hG := Nat.succ_le_succ hu.off.mark.1
  refine ⟨_,hseat.reset hk hu hG,?_,fun h => ⟨_,hfollow,?_⟩⟩
  on_goal 2 => exact Except.ok.inj ((hseat.reset hk hu hG).symm.trans (hseat.reset hk (hready h) hG))
  by_cases hsame : resetFields (settledFor c.kind fields) done = settledFor c.kind fields
  · rw [hsame]
    exact .inl (Except.ok.inj (hbefore.symm.trans hwhole))
  · refine .inr ⟨fun hafter => hsame ?_,_,done,hfollow,hdone,hsame,rfl⟩
    have hset := Datum.follow_graft hkeys hfollow (.record (resetFields (settledFor c.kind fields) done))
    rw [hafter,hfollow] at hset
    exact (Datum.record.inj (Except.ok.inj hset)).symm

end Documents

end CodeTree
