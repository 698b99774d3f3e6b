import CodeTree.Proofs.Outside
import CodeTree.Proofs.Placing
import CodeTree.Proofs.Rebuilding

/-! # Lines expected in a document

The line ends that a view of lines expects can be made, whatever the view shows: what is read for them are
indentations of nodes of the document and what follows the node that holds the lines, and these have an answer. So
the pass that adds lines to a list of a document meets no fault.
-/
namespace CodeTree
variable {α β : Type} {p : Parser} {s t u base : Store} {v : Value} {n m : NodeId} {ks : List (Option Value)}
  {E : List Value}

section Making
variable {w : ViewId} {x : String} {first : Nat} {D : List Value}

/-- The indentation that a node names. -/
def Store.indentAt (s : Store) : Value → Option Value
  | .node m => (s.nodes[m.index]?).bind (·.stored? (.field .indent))
  | _ => none

/-- A node that names an indentation by a text. -/
def Store.Indented (s : Store) (v : Value) : Prop :=
  ∃ m c x, v = .node m ∧ s.nodes[m.index]? = some c ∧ c.stored? (.field .indent) = some (.text x)

/-- Cells are added and nodes are indented, and all else stays. -/
structure Store.Relaid (s t : Store) : Prop where
  frame : s.Frame .attributes t
  indented : ∀ v, s.Indented v → t.Indented v

theorem Store.Relaid.refl (s : Store) : s.Relaid s := ⟨.refl _ _,fun _ h => h⟩

theorem Store.Relaid.trans (h : s.Relaid t) (h' : t.Relaid u) : s.Relaid u :=
  ⟨h.frame.trans h'.frame,fun v hv => h'.indented v (h.indented v hv)⟩

theorem Store.Grows.relaid (h : s.Grows t) : s.Relaid t := by
  refine ⟨h.frame _,?_⟩
  rintro v ⟨m,c,x,rfl,hc,hx⟩
  exact ⟨m,c,x,rfl,h.carries.node hc,hx⟩

theorem Store.relaid_mapNode (s : Store) (m : NodeId) (x : String) :
    s.Relaid (s.mapNode m (·.put (.field .indent) (.text x))) := by
  have hfree : Freedom.attributes.attr m (.field .indent) := by
    intro h
    cases h
  refine ⟨s.frame_put hfree _,?_⟩
  rintro v ⟨k,c,y,rfl,hc,hy⟩
  by_cases hmk : m.index = k.index
  · refine ⟨k,c.put (.field .indent) (.text x),x,rfl,?_,NodeCell.stored_put_self _ _ _⟩
    rw [Store.mapNode_get,if_pos hmk,hc]
    rfl
  · exact ⟨k,c,y,rfl,by rw [Store.mapNode_get,if_neg hmk]; exact hc,hy⟩

/-- Any node can be indented by a text. -/
theorem setIndent_known {c : NodeCell} (hm : s.nodes[m.index]? = some c) (x : String) (p : Parser) :
    setIndent (.node m) (.text x) p s = .ok () (s.mapNode m (·.put (.field .indent) (.text x))) := by
  unfold setIndent
  dsimp only
  rw [Edit.node_known hm]
  split
  · rw [Edit.read_known (r := textFieldValue (.text x)) (a := Value.text x) rfl]
    rfl
  · rfl

/-- A line end that was made after some number of nodes. -/
structure Store.MadeEnd (first : Nat) (s : Store) (v : Value) : Prop where
  new : ∃ m, v = .node m ∧ first ≤ m.index
  goes : s.Goes v .endl (.text "endl")
  indented : s.Indented v

theorem Store.MadeEnd.relaid (h : s.MadeEnd first v) (ht : s.Relaid t) : t.MadeEnd first v :=
  ⟨h.new,h.goes.frame ht.frame Freedom.type_kept,ht.indented v h.indented⟩

theorem fulfils_relaid (h : List.Forall₂ (Fulfils (s.MadeEnd first)) E ks) (ht : s.Relaid t) :
    List.Forall₂ (Fulfils (t.MadeEnd first)) E ks :=
  h.imp (fun _ _ hk => hk.imp (fun _ hv => hv.relaid ht))

theorem newLineEnd_made (c : ViewCell) (x : String) (p : Parser) (hbase : base.Grows s) :
    ∃ v t, newLineEnd c (.text x) p s = .ok v t ∧ base.Grows t ∧ s.Relaid t ∧ t.MadeEnd base.nodes.size v ∧
      t.indentAt v = some (.text x) := by
  obtain ⟨n,u,hbuild⟩ := builds_lineEnd (p := p) "" c.target c.place s
  have hsu := (build_adds _ _ _).grows hbuild
  obtain ⟨fields,k,d,hd,hg⟩ := (Kept.of_run hbuild).grown
  cases hd
  obtain rfl := hg.kind_eq (by rfl) ofWord_endl
  have hn : base.nodes.size ≤ n.index := by
    rw [hg.first]
    exact hbase.carries.nodes_le
  have hrelaid := u.relaid_mapNode n x
  have hcell : (u.mapNode n (·.put (.field .indent) (.text x))).nodes[n.index]? = some (d.put (.field .indent) (.text x)) := Store.mapNode_self hg.cell
  have hstored := NodeCell.stored_put_self d (.field .indent) (.text x)
  refine ⟨.node n,_,?_,(hbase.trans hsu).trans_off (u.growsOff_mapNode n _) hn,hsu.relaid.trans hrelaid,
    ⟨⟨n,rfl,hn⟩,?_,⟨n,_,x,rfl,hcell,hstored⟩⟩,Option.bind_eq_some_iff.mpr ⟨_,hcell,hstored⟩⟩
  · exact Edit.bind_ok.mpr ⟨.node n,u,Edit.bind_ok.mpr ⟨n,u,hbuild,rfl⟩,
      Edit.bind_ok.mpr ⟨(),_,setIndent_known hg.cell x p,rfl⟩⟩
  · exact Store.Goes.frame ⟨n,d,rfl,hg.cell,hg.kind,hg.type⟩ hrelaid.frame Freedom.type_kept

/-- All lines that are expected after others can be made, unless a blank line comes first that may not. -/
theorem lineExpected_made (c : ViewCell) (x : String) (p : Parser) (ending : Bool) (hbase : base.Grows s)
    (hD : ∀ y ∈ D, base.Typed y) {leading : Bool} {done : List Value}
    (hdone : List.Forall₂ (Fulfils (s.MadeEnd base.nodes.size)) done ks)
    (hstart : leading = false → done = [] → ∀ y ∈ D.head?, base.blank y = false) :
    ∃ E t, lineExpected (newLineEnd c (.text x)) ending leading done D p s = .ok E t ∧ base.Grows t ∧
      List.Forall₂ (Fulfils (t.MadeEnd base.nodes.size)) E
        (wantedAfter base.blank (fun v => ending && base.brings v) leading ks D) := by
  induction D generalizing s leading done ks with
  | nil => exact ⟨done,s,rfl,hbase,hdone⟩
  | cons v rest ih =>
    obtain ⟨kind,type,hgoes⟩ := hD v List.mem_cons_self
    have hrest := fun y hy => hD y (List.mem_cons_of_mem v hy)
    have hblank : type.reads "endl" = base.blank v := by
      rw [Store.blank,hgoes.sepKey]
      cases type.reads "endl" <;> rfl
    have hbrings : (type.reads "function" || type.reads "class") = base.brings v := by
      rw [Store.brings,hgoes.typeOf]
      cases type <;> rfl
    have htype : typeOf v s = .ok type := (hgoes.frame (hbase.frame .attributes) Freedom.type_kept).typeOf
    unfold lineExpected wantedAfter
    rw [Edit.read_known htype]
    change ∃ E t, (do
      if (type.reads "endl" && !leading && done.isEmpty) = true then throw Fault.outOfRange
      if (type.reads "endl" && leading || ending && (type.reads "function" || type.reads "class")) = true then
        lineExpected (newLineEnd c (.text x)) ending false ((if (type.reads "endl" && !leading) = true then done.dropLast else done) ++ [v]) rest
      else do
        let e ← newLineEnd c (.text x)
        lineExpected (newLineEnd c (.text x)) ending false ((if (type.reads "endl" && !leading) = true then done.dropLast else done) ++ [v,e]) rest : Edit (List Value)) p s = .ok E t ∧ _
    rw [hblank,hbrings]
    have hguard : ¬ (base.blank v && !leading && done.isEmpty) = true := by
      intro h
      simp only [Bool.and_eq_true,Bool.not_eq_true',List.isEmpty_iff] at h
      have hnot := hstart h.1.2 h.2 v rfl
      rw [h.1.1] at hnot
      cases hnot
    rw [if_neg hguard]
    have hbefore : List.Forall₂ (Fulfils (s.MadeEnd base.nodes.size))
        (if (base.blank v && !leading) = true then done.dropLast else done)
        (if (base.blank v && !leading) = true then ks.dropLast else ks) := by
      split
      · exact fulfils_dropLast hdone
      · exact hdone
    dsimp only
    split
    · exact ih hbase hrest (List.rel_append hbefore (.cons rfl .nil)) (fun _ h => absurd h (by simp))
    · obtain ⟨e,u,he,hu,hsu,hmade,-⟩ := newLineEnd_made c x p hbase
      obtain ⟨E,t,hrun,hE⟩ := ih hu hrest
        (List.rel_append (fulfils_relaid hbefore hsu) (.cons rfl (.cons hmade .nil)) :
          List.Forall₂ _ (_ ++ [v,e]) (_ ++ [some v,none])) (fun _ h => absurd h (by simp))
      exact ⟨E,t,Edit.bind_ok.mpr ⟨e,u,he,hrun⟩,hE⟩

end Making

section Rows
variable {top w : ViewId} {l root : ListId} {form : ViewForm} {L D : List Value} {height : Nat}

/-- A list of lines of a document: its rows, or the lines that a field of one of its nodes holds. -/
inductive Store.Row (s : Store) (top : ViewId) (l : ListId) : ViewId → ViewForm → Prop where
  | document {c : ViewCell} (view : s.views[top.index]? = some c) (form : c.form = .document) (target : c.target = .list l) :
    Store.Row s top l top .document
  | field {w : ViewId} {n : NodeId} {f : Field} {k : Kind} {form : ViewForm} {c : ViewCell} (member : s.Member top n)
    (held : Held s w l n f k form) (lines : form = .lines ∨ form = .decorators) (view : s.views[w.index]? = some c)
    (bare : c.parent = none ∧ c.extra = []) : Store.Row s top l w form

theorem Store.Row.lineList (h : s.Row top l w form) : s.LineList w l form := by
  cases h with
  | document view form target => exact .document view form target
  | field _ held lines => exact .field held lines

theorem Store.Row.carries (hdoc : s.Document top root height) (h : s.Row top l w form) (hcarries : s.Carries t) :
    t.Row top l w form := by
  cases h with
  | document view form target =>
    obtain ⟨_,hd⟩ := hcarries.view view
    exact .document hd form target
  | field member held lines view bare =>
    obtain ⟨_,hd⟩ := hcarries.view view
    exact .field ((hdoc.member_iff hcarries).mpr member) (held.carries hcarries) lines hd bare

theorem Store.Row.lineBased (h : s.Row top l w form) : form.lineBased = true := by
  cases h with
  | document => rfl
  | field _ _ lines => rcases lines with rfl | rfl <;> rfl

theorem Store.Row.view (h : s.Row top l w form) : ∃ c, s.views[w.index]? = some c ∧ c.form = form ∧ c.target = .list l := by
  cases h with
  | document view form target => exact ⟨_,view,form,target⟩
  | field _ held =>
    obtain ⟨c,hc,hform,htarget,-⟩ := held.view
    exact ⟨c,hc,hform,htarget⟩

theorem Store.Indents.carries (hdoc : s.Document top root height) (h : s.Indents top) (hcarries : s.Carries t) :
    t.Indents top := by
  intro m c hm hc hkind
  have hm := (hdoc.member_iff hcarries).mp hm
  have htree := hdoc.member hm
  obtain ⟨i,d,rfl,hd⟩ := htree.opens
  cases (hcarries.node hd.cell).symm.trans hc
  exact h m _ hm hd.cell hkind

theorem linesIndent_returns {c : ViewCell} {otherwise : Read Value} (hdoc : s.Document top root height) (hends : s.Indents top)
    (htarget : c.target = .list l) (hL : s.HasItems l .nodes L) (hmembers : ∀ x ∈ L, ∃ m, x = .node m ∧ s.Member top m)
    (hotherwise : otherwise.Returns s (fun v => ∃ x, v = .text x)) :
    (linesIndent c otherwise).Returns s (fun v => ∃ x, v = .text x) := by
  obtain ⟨lc,hl,hflavour,hitems⟩ := hL
  have hcells : ∀ x ∈ lc.items, ∃ m c, x = .node m ∧ s.nodes[m.index]? = some c := by
    intro x hx
    obtain ⟨m,rfl,hm⟩ := hmembers x (hitems ▸ hx)
    have htree := hdoc.member hm
    obtain ⟨i,d,rfl,hd⟩ := htree.opens
    exact ⟨m,d,rfl,hd.cell⟩
  have hsignificant : (significant (.list l)).Returns s (fun xs => xs ⊆ L) := by
    refine .known (a := .list l) rfl (.known (Read.list_ok.mpr hl) ?_)
    rw [if_pos (by rw [hflavour]; rfl)]
    exact hitems ▸ withoutSeparators_returns hcells
  unfold linesIndent
  rw [htarget]
  refine .bind hsignificant (fun xs hxs => ?_)
  cases xs with
  | nil => exact hotherwise
  | cons y ys =>
    obtain ⟨m,rfl,hm⟩ := hmembers y (hxs List.mem_cons_self)
    exact hdoc.attr_indentation hends hm

theorem indentExpected {e : Value} (hu : s.Grows u) (hks : ∀ k, some k ∈ ks → s.Typed k)
    (hE : List.Forall₂ (Fulfils (u.MadeEnd s.nodes.size)) E ks) (he : e ∈ E) (x : String) (p : Parser) :
    ∃ t, setIndent e (.text x) p u = .ok () t ∧ s.Relaid t ∧
      List.Forall₂ (Fulfils (t.MadeEnd s.nodes.size)) E ks := by
  obtain ⟨m,d,rfl,hd⟩ : ∃ m d, e = .node m ∧ u.nodes[m.index]? = some d := by
    obtain ⟨i,hi,rfl⟩ := List.getElem_of_mem he
    have hi' : i < ks.length := hE.length_eq ▸ hi
    have hfits := List.Forall₂.get hE hi hi'
    cases hk : ks[i] with
    | none =>
      rw [List.get_eq_getElem,List.get_eq_getElem,hk] at hfits
      obtain ⟨m,d,hm,hd,-⟩ := hfits.goes
      exact ⟨m,d,hm,hd⟩
    | some y =>
      rw [List.get_eq_getElem,List.get_eq_getElem,hk] at hfits
      obtain ⟨_,_,m,d,hm,hd,-⟩ := hks y (hk ▸ List.getElem_mem hi')
      exact ⟨m,d,Eq.trans hfits hm,hu.carries.node hd⟩
  have hrelaid := u.relaid_mapNode m x
  exact ⟨_,setIndent_known hd x p,hu.relaid.trans hrelaid,fulfils_relaid hE hrelaid⟩

/-- The indentation that the line ends of a field of lines are made with. -/
def ViewForm.margin (n : NodeId) (c : ViewCell) : ViewForm → Read Value
  | .lines => linesIndent c (indentedMore (.node n))
  | _ => linesIndent c (attr (.node n) "indentation")

/-- The indentation that the last of them is set to. -/
def ViewForm.lastIndent (n : NodeId) : ViewForm → Read Value
  | .lines => do
    let followed ← if ← truth (.node n) then truth (← attr (.node n) "next") else pure false
    if followed then attr (.node n) "indentation" else return .text ""
  | _ => attr (.node n) "indentation"

theorem linesIndent_congr {r r' : Read Value} (h : r s = r' s) : linesIndent c r s = linesIndent c r' s := by
  change (significant c.target s).bind _ = (significant c.target s).bind _
  congr
  funext found
  cases found with
  | nil => exact h
  | cons => rfl

theorem margin_returns {c : ViewCell} (hdoc : s.Document top root height) (hends : s.Indents top) (htarget : c.target = .list l)
    (hL : s.HasItems l .nodes L) (hmembers : ∀ x ∈ L, ∃ m, x = .node m ∧ s.Member top m) (hn : s.Member top n) (form : ViewForm) :
    (form.margin n c).Returns s (fun v => ∃ x, v = .text x) := by
  have hown := hdoc.attr_indentation hends hn
  cases form with
  | lines =>
    refine linesIndent_returns hdoc hends htarget hL hmembers (.bind hown ?_)
    rintro v ⟨x,rfl⟩
    exact .pure ⟨_,rfl⟩
  | _ => exact linesIndent_returns hdoc hends htarget hL hmembers hown

theorem lastIndent_returns (hdoc : s.Document top root height) (hends : s.Indents top) (hn : s.Member top n) (form : ViewForm) :
    (form.lastIndent n).Returns s (fun v => ∃ x, v = .text x) := by
  have hown := hdoc.attr_indentation hends hn
  cases form with
  | lines =>
    have hdepth := hdoc.depth
    have hend : ∀ followed : Bool, (if followed = true then attr (.node n) "indentation" else pure (.text "") : Read Value).Returns s
        (fun v => ∃ x, v = .text x) := by
      rintro (_ | _)
      · exact .pure ⟨"",rfl⟩
      · exact hown
    refine .known ((hdoc.member hn).truth (by omega)) ?_
    cases s.filled n with
    | false => exact hend false
    | true =>
      obtain ⟨next,hnext,hcases⟩ := hdoc.attr_next hn
      obtain ⟨b,hb⟩ : ∃ b, truth next s = .ok b := by
        rcases hcases with rfl | ⟨m,rfl,hm⟩
        · exact ⟨_,rfl⟩
        · exact ⟨_,(hdoc.member hm).truth (by omega)⟩
      exact .known hnext (.known hb (hend b))
  | _ => exact hown

theorem setLast_lines (hlast : ViewForm.lastIndent n .lines u = .ok (.text z)) : (do
      let followed ← if ← truth (.node n) then truth (← attr (.node n) "next") else pure false
      if followed then setIndent v (← attr (.node n) "indentation")
      else setIndent v (.text "")
      return E : Edit (List Value)) p u = (do setIndent v (← ViewForm.lastIndent n .lines); return E : Edit (List Value)) p u := by
  rw [Edit.read_known hlast]
  obtain ⟨b,hb,hlast⟩ := Read.bind_ok.mp hlast
  rw [Edit.read_known hb]
  have hend : ∀ followed : Bool, (if followed = true then attr (.node n) "indentation" else pure (.text "")) u = .ok (.text z) →
      (if followed = true then do
        setIndent v (← attr (.node n) "indentation")
        return E
      else do
        setIndent v (.text "")
        return E : Edit (List Value)) p u = (do setIndent v (.text z); return E : Edit (List Value)) p u := by
    rintro (_ | _) h
    · cases Read.pure_ok.mp h
      rfl
    · exact Edit.read_known h
  cases b with
  | false => exact hend false hlast
  | true =>
    obtain ⟨next,hnext,hlast⟩ := Read.bind_ok.mp hlast
    obtain ⟨followed,hfollowed,hlast⟩ := Read.bind_ok.mp hlast
    rw [if_pos rfl,Edit.read_known hnext,Edit.read_known hfollowed]
    exact hend followed hlast

section Expected
variable (hdoc : s.Document top root height) (hends : s.Indents top) (hrow : s.Row top l w form)
  (hL : s.HasItems l .nodes L) (hmembers : ∀ x ∈ L, ∃ m, x = .node m ∧ s.Member top m) (hshown : s.ShowsItems w D)
  (hD : ∀ x ∈ D, s.Typed x) (haccepts : form.Accepts s.blank D)
include hdoc hends hrow hL hmembers hshown hD haccepts

/-- What is expected in a list of lines of a document can be made. -/
theorem expectedItems_made (p : Parser) : ∃ E t, expectedItems w p s = .ok E t ∧ s.Relaid t ∧
    List.Forall₂ (Fulfils (t.MadeEnd s.nodes.size)) E (form.expected s.blank s.brings D) := by
  obtain ⟨c,hc,hform,htarget⟩ := hrow.view
  obtain ⟨c',hc',hitems⟩ := hshown
  cases hc.symm.trans hc'
  unfold expectedItems
  rw [Edit.view_known hc]
  dsimp only
  rw [hform,hitems]
  cases hrow with
  | document =>
    obtain ⟨E,t,hrun,ht,hE⟩ := lineExpected_made c "" p true (.refl s) hD .nil (fun h : true = false => by cases h)
    exact ⟨E,t,hrun,ht.relaid,hE⟩
  | @field _ n f k _ d member held lines view bare =>
    have hnot : form ≠ .document := by rcases lines with rfl | rfl <;> decide
    -- The document is read again when all lines are made.
    have hparent : ∀ {u}, s.Grows u → attr (.view w) "parent" u = .ok (.node n) := by
      intro u hu
      obtain ⟨_,hview⟩ := hu.carries.view view
      exact (held.carries hu.carries).attr_parent hnot hview ⟨bare.1,by rw [bare.2]; rfl⟩
    have hself := Store.Grows.refl s
    obtain ⟨_,hmargin,x,rfl⟩ := margin_returns hdoc hends htarget hL hmembers member form
    have hlast : ∀ {u}, s.Grows u → (form.lastIndent n).Returns u (fun v => ∃ x, v = .text x) := fun hu =>
      lastIndent_returns (hdoc.grows hu) (hends.carries hdoc hu.carries) ((hdoc.member_iff hu.carries).mpr member) form
    have hks : ∀ k, some k ∈ form.expected s.blank s.brings D → s.Typed k := fun k hk => hD k (ViewForm.mem_of_expected hk)
    rcases lines with rfl | rfl
    · have hlines := (linesIndent_congr (r := do indentedMore (← attr (.view w) "parent")) (Read.bind_known (hparent hself))).trans
        hmargin
      obtain ⟨first,u,hfirst,hu,-,hmade,-⟩ := newLineEnd_made c x p hself
      obtain ⟨E,v,hrun,hv,hE⟩ := lineExpected_made c x p true hu hD (.cons hmade .nil : List.Forall₂ _ [first] [none])
        (fun (_ : false = false) h => by cases h)
      dsimp only
      rw [Edit.read_known hlines]
      cases hgot : E.getLast? with
      | none =>
        refine ⟨E,v,Edit.bind_ok.mpr ⟨first,u,hfirst,Edit.bind_ok.mpr ⟨E,v,hrun,?_⟩⟩,hv.relaid,hE⟩
        rw [hgot]
        rfl
      | some last =>
        obtain ⟨_,hx,x,rfl⟩ := hlast hv
        obtain ⟨t,hset,ht⟩ := indentExpected hv hks hE (List.mem_of_getLast? hgot) x p
        refine ⟨E,t,Edit.bind_ok.mpr ⟨first,u,hfirst,Edit.bind_ok.mpr ⟨E,v,hrun,?_⟩⟩,ht⟩
        rw [hgot]
        dsimp only
        rw [Edit.read_known (hparent hv),setLast_lines hx,Edit.read_known hx]
        exact Edit.bind_ok.mpr ⟨(),t,hset,rfl⟩
    · have hlines := (linesIndent_congr (r := do attr (← attr (.view w) "parent") "indentation")
        (Read.bind_known (hparent hself))).trans hmargin
      obtain ⟨E,v,hrun,hv,hE⟩ := lineExpected_made c x p false hself hD .nil (fun (_ : false = false) _ => haccepts rfl)
      dsimp only
      rw [Edit.read_known hlines]
      cases hgot : E.getLast? with
      | none =>
        refine ⟨E,v,Edit.bind_ok.mpr ⟨E,v,hrun,?_⟩,hv.relaid,hE⟩
        rw [hgot]
        rfl
      | some last =>
        obtain ⟨_,hx,x,rfl⟩ := hlast hv
        have hx : attr (.node n) "indentation" v = .ok (.text x) := hx
        obtain ⟨t,hset,ht⟩ := indentExpected hv hks hE (List.mem_of_getLast? hgot) x p
        refine ⟨E,t,Edit.bind_ok.mpr ⟨E,v,hrun,?_⟩,ht⟩
        rw [hgot]
        dsimp only
        rw [Edit.read_known (hparent hv),Edit.read_known hx]
        exact Edit.bind_ok.mpr ⟨(),t,hset,rfl⟩

end Expected

theorem alignSeparators_known (hform : form.lineBased = true) {pairs : List (Value × Value)}
    (h : ∀ q ∈ pairs, s.Indented q.1 ∧ s.Indented q.2) (p : Parser) :
    ∃ t, alignSeparators form pairs p s = .ok () t ∧ s.Relaid t := by
  induction pairs generalizing s with
  | nil => exact ⟨s,rfl,.refl s⟩
  | cons q pairs ih =>
    obtain ⟨x,e⟩ := q
    obtain ⟨⟨m,c,a,hx,hc,ha⟩,n,d,b,he,hd,hb⟩ := h (x,e) List.mem_cons_self
    obtain rfl : x = .node m := hx
    obtain rfl : e = .node n := he
    have hone : ∃ u, alignSeparator form (.node m) (.node n) p s = .ok () u ∧ s.Relaid u := by
      have halign : ∃ u, (do
          let wanted ← attr (.node n) "indent"
          if !(← equal (← attr (.node m) "indent") wanted) then setIndent (.node m) wanted : Edit Unit) p s = .ok () u ∧
          s.Relaid u := by
        have hwanted : attr (.node n) "indent" s = .ok (.text b) := attr_stored hd hb
        have hindent : attr (.node m) "indent" s = .ok (.text a) := attr_stored hc ha
        have hequal : equal (.text a) (.text b) s = .ok (a == b) := rfl
        rw [Edit.read_known hwanted,Edit.read_known hindent,Edit.read_known hequal]
        cases a == b with
        | true => exact ⟨s,rfl,.refl s⟩
        | false => exact ⟨_,setIndent_known hc b p,s.relaid_mapNode m b⟩
      cases form <;> first | exact halign | cases hform
    obtain ⟨u,hu,hrelaid⟩ := hone
    obtain ⟨t,ht,hrest⟩ := ih (fun q hq => by
      obtain ⟨hx,he⟩ := h q (List.mem_cons_of_mem _ hq)
      exact ⟨hrelaid.indented _ hx,hrelaid.indented _ he⟩)
    exact ⟨t,Edit.bind_ok.mpr ⟨(),u,hu,ht⟩,hrelaid.trans hrest⟩

theorem Store.Document.goes (hdoc : s.Document top root height) (hm : s.Member top m) :
    ∃ k : Kind, s.Goes (.node m) k (.text k.word) := by
  have htree := hdoc.member hm
  obtain ⟨i,c,rfl,hc⟩ := htree.opens
  exact ⟨c.kind,m,c,rfl,hc.cell,rfl,hc.type⟩

theorem Store.Document.typed (hdoc : s.Document top root height) (hm : s.Member top m) : s.Typed (.node m) := by
  obtain ⟨k,hgoes⟩ := hdoc.goes hm
  exact ⟨k,_,hgoes⟩

theorem Store.Document.indented (hdoc : s.Document top root height) (hends : s.Indents top) (hm : s.Member top m)
    (hkey : sepKey "endl" s (.node m) = none) : s.Indented (.node m) := by
  have htree := hdoc.member hm
  have hend : s.isEnd m = true := by
    unfold sepKey at hkey
    rw [htree.hasType_endl] at hkey
    cases hend : s.isEnd m with
    | true => rfl
    | false =>
      rw [hend] at hkey
      cases hkey
  obtain ⟨i,c,rfl,hc⟩ := htree.opens
  rw [hc.isEnd] at hend
  obtain ⟨x,hx⟩ := hends m c hm hc.cell (beq_iff_eq.mp hend)
  exact ⟨m,c,x,rfl,hc.cell,hx⟩

theorem Store.Typed.otherEnd (h : s.Typed v) (hkey : lineKey D s v = none) : s.OtherEnd D v := by
  obtain ⟨hnot,hkey⟩ := lineKey_eq_none.mp hkey
  obtain ⟨k,type,hgoes⟩ := h
  refine ⟨⟨k,?_⟩,hnot⟩
  rw [hgoes.sepKey] at hkey
  cases hreads : type.reads "endl" with
  | true => exact Value.reads_iff.mp hreads ▸ hgoes
  | false =>
    rw [hreads] at hkey
    cases hkey

section Passing
variable (hdoc : s.Document top root height) (hends : s.Indents top) (hrow : s.Row top l w form)
  (hL : s.HasItems l .nodes L) (hmembers : ∀ x ∈ L, ∃ m, x = .node m ∧ s.Member top m) (hshown : s.ShowsItems w D)
  (hD : ∀ x ∈ D, s.Typed x) (haccepts : form.Accepts s.blank D)
  (hplaced : (L.map (lineKey D s)).Sublist (form.expected s.blank s.brings D))
include hdoc hends hrow hL hmembers hshown hD haccepts hplaced

/-- If all of a list has its place among what is expected for the lines of the view, then the pass that adds goes
through, and the list agrees with what is expected. -/
theorem bringInStep_placed (fuel : Nat) (p : Parser) : ∃ E u t L', expectedItems w p s = .ok E u ∧
    bringInStep (fuel + 1) .adding w p s = .ok () t ∧ s.Frame (.editing w l) t ∧ t.ShowsItems w D ∧
    t.HasItems l .nodes L' ∧ L.Sublist L' ∧ L'.map (lineKey D t) = form.expected s.blank s.brings D ∧
    List.Forall₂ (fun y e => y = e ∨ (t.OtherEnd D y ∧ t.OtherEnd D e)) L' E := by
  obtain ⟨E,u,hrun,hsu,hE⟩ := expectedItems_made hdoc hends hrow hL hmembers hshown hD haccepts p
  have hother : ∀ {e}, u.MadeEnd s.nodes.size e → u.OtherEnd D e := by
    intro e he
    obtain ⟨m,rfl,hm⟩ := he.new
    exact ⟨⟨.endl,he.goes⟩,not_any_is hD hm⟩
  have hDu : ∀ x ∈ D, u.Typed x := fun x hx => (hD x hx).frame hsu.frame Freedom.type_kept
  obtain ⟨hEtyped,hEkeys⟩ := fulfils_keys hDu (hE.imp (fun _ _ h => h.imp (fun _ => hother))) (fun _ => ViewForm.mem_of_expected)
  have hLtyped : ∀ x ∈ L, s.Typed x := by
    intro x hx
    obtain ⟨m,rfl,hm⟩ := hmembers x hx
    exact hdoc.typed hm
  have hLu : ∀ x ∈ L, u.Typed x := fun x hx => (hLtyped x hx).frame hsu.frame Freedom.type_kept
  obtain ⟨c,hc,hform,htarget⟩ := hrow.view
  obtain ⟨c',hc',hitems⟩ := id hshown
  cases hc.symm.trans hc'
  obtain ⟨d,hd,hkeeps⟩ := hsu.frame.view hc
  have hdform : d.form = form := hkeeps.form.trans hform
  have hditems : d.items = D := (hkeeps.items id).trans hitems
  obtain ⟨lc,hlc,hflavour,rfl⟩ := hL.frame hsu.frame id
  have hbased := hrow.lineBased
  have hcompares : Compares (judgeOf .adding d u) (lineKey D u) lc.items E := by
    have h := compares_lines (c := d) (by rw [hdform]; exact hbased) (by rw [hditems]; exact hDu) hLu hEtyped
    rwa [hditems] at h
  have hkeys : lc.items.map (lineKey D u) = lc.items.map (lineKey D s) :=
    List.map_congr_left (fun x hx => lineKey_frame (hLtyped x hx) hsu.frame Freedom.type_kept)
  have haugmented := augment_augmented hcompares
  have hfits := haugmented.all_placed (by rw [hkeys,hEkeys]; exact hplaced)
  generalize hplan : augment (judgeOf .adding d u) lc.items E = plan at haugmented hfits
  have hpairsIn : plan.PairsIn (judgeOf .adding d u) lc.items E := hplan ▸ augment_pairs _ _
  have hagree : ∀ {y e}, plan.Fits y e → y = e ∨ (lineKey D u y = none ∧ lineKey D u e = none) := by
    intro y e h
    exact lineKey_eq_iff.mp (hpairsIn.key_eq hcompares h)
  have hmade : ∀ e ∈ E, lineKey D u e = none → u.MadeEnd s.nodes.size e := by
    intro e he hkey
    obtain ⟨i,hi,rfl⟩ := List.getElem_of_mem he
    have hi' : i < (form.expected s.blank s.brings D).length := hE.length_eq ▸ hi
    have hone := List.Forall₂.get hE hi hi'
    rw [List.get_eq_getElem,List.get_eq_getElem] at hone
    cases hk : (form.expected s.blank s.brings D)[i] with
    | none =>
      rw [hk] at hone
      exact hone
    | some v =>
      rw [hk] at hone
      have hv := ViewForm.mem_of_expected (hk ▸ List.getElem_mem hi')
      rw [show E[i] = v from hone,lineKey_of_mem hv (hDu v hv)] at hkey
      cases hkey
  -- Line ends that are paired are those of the document and those that were made.
  have hindented : ∀ q ∈ plan.pairs, u.Indented q.1 ∧ u.Indented q.2 := by
    intro q hq
    obtain ⟨hx,he,hjudge⟩ := hpairsIn q hq
    have hold : u.Indented q.1 := by
      obtain ⟨b,hb,hiff⟩ := bothSeparate_ok d.form (hLu _ hx) (hEtyped _ he)
      cases hb.symm.trans (judgeAdding_paired hjudge)
      rw [hdform,ViewForm.separator_of_lines hbased] at hiff
      obtain ⟨m,hm,hmember⟩ := hmembers _ hx
      have hkey := (hiff.mp rfl).1
      rw [sepKey_frame (hLtyped _ hx) hsu.frame Freedom.type_kept,hm] at hkey
      rw [hm]
      exact hsu.indented _ (hdoc.indented hends hmember hkey)
    refine ⟨hold,?_⟩
    rcases hagree (.inr hq) with heq | ⟨-,hnone⟩
    · rw [← heq]
      exact hold
    · exact (hmade _ he hnone).indented
  obtain ⟨t,halign,hut⟩ := alignSeparators_known (s := u.holding l plan.result) hbased hindented p
  have hframe : u.Frame (.editing w l) t := (Store.frame_holding rfl _).trans (hut.frame.mono (Freedom.attributes_le w l))
  have hkept : ∀ {y}, u.Typed y → lineKey D t y = lineKey D u y := fun hy => lineKey_frame hy hframe (Freedom.editing_type w l)
  have hresult : ∀ y ∈ plan.result, u.Typed y := fun y hy => (augment_origin (hplan ▸ hy)).elim (hLu y) (hEtyped y)
  have hlist : u.HasItems l .nodes lc.items := ⟨lc,hlc,hflavour,rfl⟩
  refine ⟨E,u,t,plan.result,hrun,?_,(hsu.frame.mono (Freedom.attributes_le w l)).trans hframe,?_,?_,?_,?_,?_⟩
  · have hdots : d.form ≠ .dotted := by
      rw [hdform]
      rintro rfl
      cases hbased
    have hplan : planOf .adding d u (lc.items.drop 0) E = plan := hplan
    rw [bringInStep_known hrun hd (hkeeps.target.trans htarget) hlc (settledItems_zero hdots) (hplan ▸ haugmented.fault),
      hplan,hdform]
    exact halign
  · have hshows : (u.holding l plan.result).ShowsItems w D := ⟨d,hd,hditems⟩
    exact hshows.frame hut.frame id
  · exact (Store.holding_items hlist _).frame hut.frame id
  · exact hplan ▸ augment_sublist _ _
  · rw [← hEkeys,← hpairsIn.keys hcompares hfits]
    exact List.map_congr_left (fun y hy => hkept (hresult y hy))
  · refine List.Forall₂.imp ?_ ((List.forall₂_and_left _ _).mpr ⟨hresult,hfits⟩)
    rintro y e ⟨hy,rfl | hpair⟩
    · exact .inl rfl
    · have he := hEtyped e (hpairsIn _ hpair).2.1
      refine (hagree (.inr hpair)).imp id (fun hnone => ⟨?_,?_⟩)
      · exact stable_otherEnd (Freedom.editing_type w l) D y u t (hy.otherEnd hnone.1) hframe
      · exact stable_otherEnd (Freedom.editing_type w l) D e u t (he.otherEnd hnone.2) hframe

end Passing

end Rows

end CodeTree
