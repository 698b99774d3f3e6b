import CodeTree.Proofs.Replacing

/-! # Nodes whose fields are set anew

An edit may store new values under fields of one node of a document. If it changes nothing else, the document is written
back with these fields exchanged and all else as it was. For this it does not matter what the new values are, as long as
each of them is read as a datum; so an edit can be followed step by step, field by field.
-/
namespace CodeTree
variable {p : Parser} {s t u v : Store} {n : NodeId} {k : Kind} {c : NodeCell} {f : Field} {form : Form} {F G : Nat}
  {part : Field → Datum} {a b : Mark} {parent : Value} {place : Option Attr} {fields : List (String × Datum)} {e : Datum}
  {x : Value}

section Fields

/-- The form in which nodes of a kind hold a field. -/
def Kind.formOf (k : Kind) (f : Field) : Option Form := if f = .type then some .text else formIn f k.layout

theorem Kind.formOf_slot {shown : Shown} (h : .field form f shown ∈ k.layout) : k.formOf f = some form := by
  unfold Kind.formOf
  split
  · next hf =>
    subst hf
    rw [type_slot h]
  · exact formIn_eq (layout_nodup k) h

theorem Kind.formOf_type (k : Kind) : k.formOf .type = some .text := if_pos rfl

theorem Kind.formOf_cases (h : k.formOf f = some form) : f = .type ∧ form = .text ∨ ∃ shown, .field form f shown ∈ k.layout := by
  unfold Kind.formOf at h
  split at h
  · next hf => exact .inl ⟨hf,(Option.some.inj h).symm⟩
  · exact .inr (formIn_mem h)

/-- What a field of a form holds is read as a datum, given enough fuel and whatever becomes of one node. -/
def Store.StaysRead (u : Store) (n : NodeId) (F : Nat) (form : Form) (x : Value) (e : Datum) : Prop :=
  match form with
  | .text | .flag => x.toDatum?.getD .null = e
  | .child => (x = .none ∨ x = .text "") ∧ e = .record [] ∨
    ∃ m, x = .node m ∧ ∀ v fuel, u.Drifts (.whole n) v → F ≤ fuel → snapshotAt fuel x v = .ok e
  | .children | .formatting => ∀ v fuel, u.Drifts (.whole n) v → F ≤ fuel →
    ∃ ms parts, members x v = .ok ms ∧ ms.mapM (snapshotAt fuel) v = .ok parts ∧ .list parts = e

theorem Store.StaysRead.imp (h : u.StaysRead n F form x e)
    (hle : ∀ w fuel, v.Drifts (.whole n) w → G ≤ fuel → u.Drifts (.whole n) w ∧ F ≤ fuel) : v.StaysRead n G form x e := by
  have hread {P : Store → Nat → Prop} (h : ∀ w fuel, u.Drifts (.whole n) w → F ≤ fuel → P w fuel) w fuel
      (hw : v.Drifts (.whole n) w) (hfuel : G ≤ fuel) : P w fuel := h w fuel (hle w fuel hw hfuel).1 (hle w fuel hw hfuel).2
  cases form with
  | text | flag => exact h
  | child =>
    rcases h with h | ⟨m,hx,h⟩
    · exact .inl h
    · exact .inr ⟨m,hx,hread h⟩
  | children | formatting => exact hread h

theorem Store.StaysRead.drifts (h : u.StaysRead n F form x e) (hu : u.Drifts (.whole n) v) : v.StaysRead n F form x e :=
  h.imp (fun _ _ hw hfuel => ⟨hu.trans hw,hfuel⟩)

theorem Store.StaysRead.mono (h : u.StaysRead n F form x e) (hF : F ≤ G) : u.StaysRead n G form x e :=
  h.imp (fun _ _ hw hfuel => ⟨hw,Nat.le_trans hF hfuel⟩)

end Fields

section Refits

/-- A node of a kind is left with fields that are read as given, and what is written of all other old cells is as it was. -/
structure Refits (t : Store) (n : NodeId) (k : Kind) (F : Nat) (part : Field → Datum) (u : Store) : Prop where
  off : t.Drifts (.whole n) u
  cell : ∃ c, u.nodes[n.index]? = some c ∧ c.kind = k ∧ c.building = false ∧ c.texts = k.textFields ∧
    c.lists = k.listFields ∧ c.children = k.childFields ∧
    ∀ f form, k.formOf f = some form → ∃ x, c.stored? (.field f) = some x ∧ u.StaysRead n F form x (part f)

/-- A node of a kind that has been built. -/
def Store.Finished (t : Store) (n : NodeId) (k : Kind) : Prop :=
  ∃ c, t.nodes[n.index]? = some c ∧ c.kind = k ∧ c.building = false ∧ c.texts = k.textFields ∧ c.lists = k.listFields ∧
    c.children = k.childFields

theorem Store.Finished.drifts {D : Freedom} (h : t.Finished n k) (hu : t.Drifts D u) (hfree : ¬ D.attr n (.field .type)) :
    u.Finished n k := by
  obtain ⟨c,hc,hkind,hb,htexts,hlists,hchildren⟩ := h
  obtain ⟨d,hd,hall | hkeeps⟩ := hu.node hc
  · exact absurd (hall _) hfree
  exact ⟨d,hd,hkeeps.kind.trans hkind,hkeeps.building.trans hb,hkeeps.texts.trans htexts,hkeeps.lists.trans hlists,
    hkeeps.children.trans hchildren⟩

theorem Store.Finished.put (h : t.Finished n k) (m : NodeId) (a : Attr) (x : Value) : (t.mapNode m (·.put a x)).Finished n k := by
  obtain ⟨c,hc,hcell⟩ := h
  rw [Store.Finished,Store.mapNode_get,hc]
  split
  · exact ⟨c.put a x,rfl,hcell⟩
  · exact ⟨c,rfl,hcell⟩

theorem Planted.finished (hg : Planted p t a b n parent place fields k c) : t.Finished n k :=
  ⟨c,hg.cell,hg.kind,hg.building,hg.texts,hg.lists,hg.children⟩

theorem Refits.finished (h : Refits t n k F part u) : u.Finished n k := by
  obtain ⟨c,hc,hkind,hb,htexts,hlists,hchildren,-⟩ := h.cell
  exact ⟨c,hc,hkind,hb,htexts,hlists,hchildren⟩

/-- Data for fields, with another datum for one of them. -/
def exchange (part : Field → Datum) (x : Field × Datum) : Field → Datum := fun g => if g = x.1 then x.2 else part g

theorem Refits.mono (h : Refits t n k F part u) (hF : F ≤ G) : Refits t n k G part u := by
  obtain ⟨c,hc,hkind,hb,htexts,hlists,hchildren,hreads⟩ := h.cell
  refine ⟨h.off,c,hc,hkind,hb,htexts,hlists,hchildren,fun f form hform => ?_⟩
  obtain ⟨x,hx,hread⟩ := hreads f form hform
  exact ⟨x,hx,hread.mono hF⟩

/-- New cells do not matter, nor what the old ones hang at. -/
theorem Refits.drifts (h : Refits t n k F part u) (hu : u.Drifts .nothing v) : Refits t n k F part v := by
  have hoff : u.Drifts (.whole n) v := hu.mono (fun _ _ h => h.elim) (fun _ h => h)
  obtain ⟨c,hc,hkind,hb,htexts,hlists,hchildren,hreads⟩ := h.cell
  obtain ⟨d,hd,hkeeps⟩ := hu.keeps hc (fun _ h => h)
  refine ⟨h.off.trans hoff,d,hd,hkeeps.kind.trans hkind,hkeeps.building.trans hb,hkeeps.texts.trans htexts,
    hkeeps.lists.trans hlists,hkeeps.children.trans hchildren,fun f form hform => ?_⟩
  obtain ⟨x,hx,hread⟩ := hreads f form hform
  exact ⟨x,(hkeeps.stored_eq _).trans hx,hread.drifts hoff⟩

theorem Refits.grows (h : Refits t n k F part u) (hu : u.Grows v) : Refits t n k F part v := h.drifts (hu.drifts _)

theorem Refits.put (h : Refits t n k F part u) (hform : k.formOf f = some form) (hread : u.StaysRead n F form x e) :
    Refits t n k F (exchange part (f,e)) (u.mapNode n (·.put (.field f) x)) := by
  obtain ⟨c,hc,hkind,hb,htexts,hlists,hchildren,hreads⟩ := h.cell
  have hoff := (u.growsOff_mapNode n (·.put (.field f) x)).drifts
  refine ⟨h.off.trans hoff,c.put (.field f) x,?_,hkind,hb,htexts,hlists,hchildren,fun g form' hform' => ?_⟩
  · exact Store.mapNode_self hc
  · by_cases hg : g = f
    · subst hg
      cases hform.symm.trans hform'
      refine ⟨x,NodeCell.stored_put_self _ _ _,?_⟩
      rw [exchange,if_pos rfl]
      exact hread.drifts hoff
    · obtain ⟨y,hy,hread'⟩ := hreads g form' hform'
      refine ⟨y,?_,?_⟩
      · rw [NodeCell.stored_put_of_ne (by simpa using hg)]
        exact hy
      · rw [exchange,if_neg hg]
        exact hread'.drifts hoff

theorem Refits.writes (h : Refits t n k F part u) (hk : k ≠ .int) : u.Writes (F + 1) (.node n) (.record (gathered k part)) := by
  obtain ⟨c,hc,rfl,-,htexts,hlists,hchildren,hreads⟩ := h.cell
  intro fuel hfuel
  obtain _ | fuel := fuel
  · omega
  have hfuel : F ≤ fuel := by omega
  have hrefl := (Store.GrowsOff.refl n u).drifts
  refine snapshot_layout fuel part hc hk htexts hlists hchildren ?_ (fun {form f shown} hslot => ?_)
  · exact hreads .type .text c.kind.formOf_type
  · obtain ⟨x,hx,hread⟩ := hreads f form (Kind.formOf_slot hslot)
    refine ⟨x,hx,?_⟩
    cases form with
    | text => exact hread
    | flag => exact hread
    | child =>
      rcases hread with ⟨rfl | rfl,he⟩ | ⟨m,hm,hread⟩
      · exact .inl ⟨rfl,he⟩
      · exact .inl ⟨rfl,he⟩
      · exact .inr ⟨m,hm,hread u fuel hrefl hfuel⟩
    | children | formatting => exact hread u fuel hrefl hfuel

/-- A node that was built is read as the data that it was built from. -/
theorem Planted.refits (hg : Planted p t a b n parent place fields k c) (hk : k ≠ .int) (hn : n.index < a.nodes)
    (hF : b.nodes ≤ a.nodes + F) : Refits t n k F (settledParts k fields) t := by
  refine ⟨(Store.GrowsOff.refl n t).drifts,c,hg.cell,hg.kind,hg.building,hg.texts,hg.lists,hg.children,fun f form hform => ?_⟩
  rcases Kind.formOf_cases hform with ⟨rfl,rfl⟩ | ⟨shown,hslot⟩
  · exact ⟨_,hg.type,(part_type hg.named).symm⟩
  obtain ⟨d,x,y,z,hd,hx,hy,hz,hheld⟩ := hg.slot_within hk hslot
  refine ⟨x,hx,?_⟩
  have hsize : ∀ {fuel}, F ≤ fuel → z.nodes ≤ y.nodes + fuel := by
    intro fuel hfuel
    have := hy.1
    have := hz.1
    omega
  -- What the field holds lies behind the node, so it is read as before whatever becomes of the node.
  have havoids : (Freedom.whole n).Avoids y z := by
    refine ⟨fun {m _} hm _ hF => ?_,fun _ _ h => h⟩
    have := hy.1
    cases hF
    omega
  have hlater : ∀ v fuel, t.Drifts (.whole n) v → F ≤ fuel →
      v.WritesField fuel form x (settledParts k fields f) :=
    fun v fuel hv hfuel => hheld.writes_drift hslot hd (hsize hfuel) hv havoids
  have hrefl := (Store.GrowsOff.refl n t).drifts
  cases form with
  | text | flag => exact hlater t F hrefl (Nat.le_refl F)
  | child =>
    rcases hheld.child_part hslot hd rfl (hsize (Nat.le_refl F)) (snapshot_built d) with ⟨rfl,he⟩ | ⟨m,rfl,-⟩
    · exact .inl ⟨.inl rfl,he⟩
    · refine .inr ⟨m,rfl,fun v fuel hv hfuel => ?_⟩
      obtain ⟨h,-⟩ | ⟨_,-,h⟩ := hlater v fuel hv hfuel
      · cases h
      · exact h
  | children => exact hlater
  | formatting => exact hlater

end Refits

section Assigning
variable {v : Value} {word : String} {shown : Shown}

/-- Places where the text of a child is worked into other nodes as well. -/
def Kind.reworks (k : Kind) (f : Field) : Bool :=
  match k, f with
  | .printStmt, .destination | .tryStmt, .finallyBranch | .tryStmt, .elseBranch | .forLoop, .elseBranch
  | .whileLoop, .elseBranch => true
  | _, _ => false

/-- What a value is turned into before it is stored under a field of a form. -/
def Form.convert (form : Form) (n : NodeId) (f : Field) (v : Value) : Edit Value :=
  match form with
  | .text | .flag => textFieldValue v
  | .child => childFrom n v (.node n) (some (.field f))
  | .children | .formatting => listFor (.node n) v (.node n) (some (.field f))

/-- What the layouts keep to: each field is filed by its form, and views are only put around lists. -/
def Slot.filed (k : Kind) : Slot → Bool
  | .field form f _ => k.textFields.contains f == form.isText && k.listFields.contains f == form.isList &&
      k.childFields.contains f == (!form.isText && !form.isList) && (form.isList || (k.viewForm f).isNone) &&
      !(form.isList && (k.checks f || (k.childContext f).isSome || k.reworks f))
  | _ => true

theorem layout_filed (k : Kind) : ∀ slot ∈ k.layout, slot.filed k = true := by
  cases k <;> decide

theorem assignConverted_run (hn : s.Finished n k) (hslot : .field form f shown ∈ k.layout) (v : Value) :
    assignConverted n (.field f) v p s = (do putAttr n (.field f) (← form.convert n f v) : Edit Unit) p s := by
  obtain ⟨c,hc,rfl,hb,htexts,hlists,hchildren⟩ := hn
  have hfiled := layout_filed c.kind _ hslot
  simp only [Slot.filed,Bool.and_eq_true,beq_iff_eq] at hfiled
  obtain ⟨⟨⟨⟨htext,hlist⟩,hchild⟩,-⟩,-⟩ := hfiled
  refine (Edit.node_known hc).trans ?_
  dsimp only
  rw [hb,htexts,hlists,hchildren,htext,hlist,hchild]
  cases form <;> rfl

theorem Form.convert_list (h : form.isList = true) (n : NodeId) (f : Field) (v : Value) :
    form.convert n f v = listFor (.node n) v (.node n) (some (.field f)) := by
  cases form <;> first | rfl | cases h

theorem assigned_uncomputed (h : k.assigned (.ofWord word) = .field f) : nodeProperties.lookup word = none := by
  unfold Attr.ofWord at h
  split at h
  · next g hg =>
    obtain rfl : g.word = word := by simpa using List.find?_some hg
    exact nodeProperties_field g
  · unfold Kind.assigned at h
    split at h
    all_goals first | cases h; done | next heq => cases heq; rfl

/-- A value is prepared, converted and stored, and a view is put around it. -/
theorem assign_run (hn : s.Finished n k) (hword : k.assigned (.ofWord word) = .field f) : assign (.node n) word v p s = (do
    let v ← prepareStore n k (.field f) v
    assignConverted n (.field f) v
    wrapHeld n (.field f) : Edit Unit) p s := by
  obtain ⟨c,hc,rfl,-⟩ := hn
  change assignNode n word v p s = _
  unfold assignNode
  rw [Edit.node_known hc,hword,assigned_uncomputed hword]
  rfl

end Assigning

section Documents
variable {w : ViewId} {levels : Nat} {x : Value} {e whole : Datum} {keys : List Key}

theorem Spans.graft_node (h : Spans p t a b levels x e) (hleads : t.Leads x keys (.node n)) (hb : b ≤ t.mark) :
    ∃ d parent place y z, Kept (build d parent place) p y z n t ∧ z ≤ b ∧
      ∀ {u F E}, t.Drifts (.whole n) u → u.Writes (F + (z.nodes - y.nodes)) (.node n) E → u.Writes (F + levels) x (e.graft keys E) := by
  generalize hw : Value.node n = w at hleads
  induction hleads generalizing a b levels e with
  | here x =>
    subst hw
    cases h with
    | node kept => exact ⟨_,_,_,a,b,kept,Mark.le_refl b,fun _ h => h⟩
  | down step rest ih =>
    subst hw
    obtain ⟨y,z,below,d,hparted⟩ := h.step step
    have hindex := hparted.part.index rest
    obtain ⟨d',parent,place,y',z',hkept,hz,hwrites⟩ := ih hparted.part (Mark.le_trans hparted.to_le hb) rfl
    exact ⟨d',parent,place,y',z',hkept,Mark.le_trans hz hparted.to_le,fun hu hn =>
      hparted.grafts hu (Freedom.whole_confined hindex.1 (Nat.lt_of_lt_of_le hindex.2 (Value.le_stop _ _).1)) (fun _ h => h)
        (hwrites hu hn)⟩

/-- A node of a document, and what the document is written as when fields of the node are set anew. -/
structure Seated (p : Parser) (w : ViewId) (t : Store) (whole : Datum) (keys : List Key) (n : NodeId) (c : NodeCell)
    (fields : List (String × Datum)) (F : Nat) : Prop where
  grown : ∃ a b parent place, Grown p t a b n parent place fields c.kind c
  follow : whole.follow keys = .ok (settled (.record fields))
  refits : c.kind ≠ .int → Refits t n c.kind F (settledParts c.kind fields) t
  exchanged : ∀ {part G u}, c.kind ≠ .int → Refits t n c.kind (F + G) part u → t.nodes.size + G ≤ u.nodes.size + 1 →
    snapshot (.view w) u = .ok (whole.graft keys (.record (gathered c.kind part)))

theorem Seated.planted (h : Seated p w t whole keys n c fields F) :
    ∃ a b parent place, Planted p t a b n parent place fields c.kind c := by
  obtain ⟨a,b,parent,place,hg⟩ := h.grown
  exact ⟨_,b,parent,place,hg.toPlanted⟩

theorem newDocument_seated {source : String} (h : newDocument source p s = .ok (.view w) t) :
    ∃ root whole, behind (.view w) t = .ok (.list root) ∧ snapshot (.view w) t = .ok whole ∧
      (∀ u, t.Grows u → snapshot (.view w) u = .ok whole) ∧
      ∀ keys n c, t.Reaches root keys (.node n) → t.nodes[n.index]? = some c → ∃ fields F, Seated p w t whole keys n c fields F := by
  obtain ⟨root,whole,a,b,levels,vc,lc,hspans,hb,hview,htarget,hextra,hlist⟩ := newDocument_spans h
  have hlevels := hspans.levels_le
  have hsize : b.nodes ≤ t.nodes.size := hb.1
  have hlists := Store.lt_lists_of_get hlist
  have hviews := Store.lt_views_of_get hview
  -- Whatever is added, the fuel suffices for the list behind the document.
  have hdepth : ∀ {u D G} {e : Datum}, t.Drifts D u → t.nodes.size + G ≤ u.nodes.size + 1 →
      u.Writes (G + levels) (.list root) e → snapshot (.view w) u = .ok e := by
    intro u D G e hu hG hwrites
    obtain ⟨vc',hw,htarget'⟩ := hu.view hview
    refine (hwrites.view hw (htarget'.trans htarget)).snapshot ?_
    have := hu.mark.2.1
    have := hu.mark.2.2
    simp only [Store.mark] at *
    unfold Store.depth
    omega
  have hgrown : ∀ u, t.Grows u → snapshot (.view w) u = .ok whole := by
    intro u hu
    have hspansU : Spans p u a b levels (.list root) whole :=
      hspans.growsOff (z := ⟨t.nodes.size⟩) (hu.off _) hb (.inr hsize)
    have hmark : t.nodes.size ≤ u.nodes.size := hu.mark.1
    refine hdepth (G := 0) (hu.drifts .nothing) (by omega) ?_
    rw [Nat.zero_add]
    exact hspansU.writes
  refine ⟨root,whole,behind_view hview htarget,hgrown t (.refl t),hgrown,fun keys n c hreach hc => ?_⟩
  have hleads := hreach.toLeads
  obtain ⟨d,parent,place,y,z,hkept,hz,hwrites⟩ := hspans.graft_node hleads hb
  obtain ⟨fields,k,c',rfl,hg⟩ := hkept.grown
  cases hg.cell.symm.trans hc
  obtain rfl := hg.kind
  have hfollow : whole.follow keys = .ok (settled (.record fields)) := by
    obtain ⟨e,hfollow,he⟩ := hreach.written (hspans.written hb)
    have hdepth : z.nodes ≤ y.nodes + t.depth := by
      have := hz.1
      unfold Store.depth
      omega
    cases (snapshot_built _ hkept hdepth).symm.trans he.snapshot
    exact hfollow
  have hrange : z.nodes ≤ y.nodes + 1 + (z.nodes - y.nodes - 1) := by omega
  have hbelow := hkept.nodes_lt
  refine ⟨fields,z.nodes - y.nodes - 1,⟨_,_,_,_,hg⟩,hfollow,fun hk => ?_,fun {part G u} hk hrefits hG => ?_⟩
  · refine hg.toPlanted.refits hk ?_ hrange
    simp only [hg.first]
    omega
  · have hn := hrefits.writes hk
    have hfuel : z.nodes - y.nodes - 1 + G + 1 = G + (z.nodes - y.nodes) := by omega
    rw [hfuel] at hn
    exact hdepth hrefits.off hG (hwrites hrefits.off hn)

end Documents

end CodeTree
