import CodeTree.Proofs.Boxes

/-! # Boxes in a document

A new document is written back as data, each node or list in it as the part at the keys that lead there. So the
box of a node in the document is the box of that part, and it cuts the text of the node out of the text of the
document.
-/
namespace CodeTree
variable {d e : Datum} {f : Field} {form : Form} {k : Kind} {fields : List (String × Datum)} {keys : List Key}
  {lc : ListCell} {l : ListId} {a b : Mark} {steps : Nat} {c : NodeCell} {m n : NodeId} {place : Option Attr} {word : String}
  {x parent v : Value} {w : ViewId}

section Writing
variable {p : Parser} {t : Store}

theorem Datum.follow_snoc {e' : Datum} {key : Key} (h : d.follow keys = .ok e) (hstep : e.step key = .ok e') :
    d.follow (keys ++ [key]) = .ok e' := by
  induction keys generalizing d with
  | nil =>
    cases h
    rw [List.nil_append,Datum.follow,hstep]
    rfl
  | cons key' keys ih =>
    rw [List.cons_append,Datum.follow]
    rw [Datum.follow] at h
    cases hd : d.step key' with
    | error fault =>
      rw [hd] at h
      cases h
    | ok part =>
      rw [hd] at h
      exact ih h

/-- A node or list as it was built, and the data it is written back as. -/
inductive Written (p : Parser) (t : Store) : Value → Datum → Prop where
  | node {n : NodeId} {d : Datum} {parent : Value} {place : Option Attr} {a b : Mark}
      (kept : Kept (build d parent place) p a b n t) (made : b.nodes ≤ t.nodes.size) : Written p t (.node n) (settled d)
  | list {l : ListId} {lc : ListCell} {ds : List Datum} {parent : Value} {place : Option Attr} {a b : Mark}
      (cell : t.lists[l.index]? = some lc) (nodes : lc.flavour = .nodes)
      (kept : Kept (buildEach ds parent place) p a b lc.items t) (made : b.nodes ≤ t.nodes.size) :
      Written p t (.list l) (.list (ds.map settled))

theorem Written.snapshotAt (h : Written p t x e) {fuel : Nat} (hfuel : t.nodes.size < fuel) :
    CodeTree.snapshotAt fuel x t = .ok e := by
  cases h with
  | @node n d parent place a b kept made =>
    exact snapshot_built d kept (by omega)
  | @list l lc ds parent place a b cell nodes kept made =>
    obtain _ | fuel := fuel
    · omega
    have hrange : b.nodes ≤ a.nodes + fuel := by omega
    have hrow := snapshot_row (fun d _ => snapshot_built d) kept hrange
    simp only [CodeTree.snapshotAt,Read.bind_ok,Read.list_ok]
    refine ⟨lc,cell,?_⟩
    rw [nodes,if_pos (by rfl)]
    simp only [Read.bind_ok,Read.pure_ok]
    exact ⟨_,hrow,rfl⟩

theorem Written.snapshot (h : Written p t x e) : CodeTree.snapshot x t = .ok e := by
  change CodeTree.snapshotAt t.depth x t = _
  refine h.snapshotAt ?_
  unfold Store.depth
  omega

section Steps

/-- The node at a position of a row was built from the datum there. -/
theorem Kept.member {ds : List Datum} {vs : List Value} {k : Nat} (h : Kept (buildEach ds parent place) p a b vs t)
    (hk : vs[k]? = some (.node m)) : ∃ d x y, ds[k]? = some d ∧ Kept (build d parent place) p x y m t ∧ a ≤ x ∧ y ≤ b := by
  induction ds generalizing a vs k with
  | nil =>
    cases h.nil
    cases hk
  | cons d ds ih =>
    obtain ⟨n,rest,e,rfl,hd,hds,hae,heb⟩ := h.cons
    cases k with
    | zero =>
      cases hk
      exact ⟨d,a,e,rfl,hd,Mark.le_refl a,heb⟩
    | succ k =>
      obtain ⟨d,x,y,hd,hkept,hx,hy⟩ := ih hds hk
      exact ⟨d,x,y,hd,hkept,Mark.le_trans hae hx,hy⟩

theorem Written.item {k : Nat} (h : Written p t (.list l) e) (hl : t.lists[l.index]? = some lc)
    (hk : lc.items[k]? = some (.node m)) : ∃ e', e.step (.index k) = .ok e' ∧ Written p t (.node m) e' := by
  cases h with
  | @list _ lc' ds parent place a b cell nodes kept made =>
    rw [hl] at cell
    cases cell
    obtain ⟨d,x,y,hd,hkept,-,hy⟩ := kept.member hk
    refine ⟨settled d,Datum.step_index ?_,.node hkept (Nat.le_trans hy.1 made)⟩
    rw [List.getElem?_map,hd]
    rfl

theorem Grown.layout (hg : Grown p t a b n parent place fields k c) : c.layout = .ok k.layout := by
  simp [NodeCell.layout,NodeCell.typeValue,hg.type,hg.kind]

theorem Grown.slot_of_view (hg : Grown p t a b n parent place fields k c) (hstored : c.stored? (.field f) = some (.view w)) :
    f ∈ slotFields k.layout := by
  rcases hg.own _ _ hstored with htype | ⟨g,hslot,heq⟩
  · rw [htype,hg.type] at hstored
    cases hstored
  · cases heq
    exact hslot

/-- A field that holds neither plain data nor spacing that was set anew holds what was built for it. -/
theorem Grown.holds {shown : Shown} {held : Value} (hg : Grown p t a b n parent place fields k c)
    (hslot : .field form f shown ∈ k.layout) (hv : c.stored? (.field f) = some held) (hdata : ∀ d, held ≠ .ofDatum d)
    (hplain : ∀ l lc, held = .list l → t.lists[l.index]? = some lc → lc.flavour ≠ .plain) :
    k ≠ .int ∧ respaced k fields f = none ∧ ∃ d x y, lookupLast f.word fields = some d ∧ y.nodes ≤ b.nodes ∧
      Holds p t n k form f d x y held := by
  have hint : k ≠ .int := by
    rintro rfl
    obtain ⟨-,i,-,-,hi⟩ := hg.number rfl
    obtain rfl : f = .value := by
      cases List.mem_singleton.mp hslot
      rfl
    rw [hv] at hi
    exact hdata (.int i) (Option.some.inj hi)
  obtain ⟨d,v,x,y,hd,hv',-,hy,hh⟩ := hg.slot hint hslot
  rw [hv] at hv'
  cases hv'
  cases hr : respaced k fields f with
  | none =>
    rw [Slotted,hr] at hh
    exact ⟨hint,rfl,d,x,y,hd,hy,hh⟩
  | some present =>
    rw [Slotted,hr] at hh
    obtain ⟨l,items,rfl,-,-,hl,-⟩ := hh
    exact absurd rfl (hplain l _ rfl hl)

theorem Holds.isPart {x y : Mark} {held : Value} (h : Holds p t n k form f d x y held) (hdata : ∀ d, held ≠ .ofDatum d) :
    form.isText = false := by
  have hfalse : held ≠ k.keeps f (.ofDatum d) := by
    obtain ⟨e,he⟩ := k.keeps_ofDatum f d
    rw [he]
    exact hdata e
  cases form with
  | text => exact absurd h hfalse
  | flag => exact absurd h hfalse
  | _ => rfl

section Slots
variable {n : NodeId} {c : NodeCell} {slots : List Slot} {form : Form} {f : Field} {shown : Shown} {e : Datum}
  (h : Written p t (.node n) e) (hc : t.nodes[n.index]? = some c) (hlayout : c.layout = .ok slots)
  (hslot : .field form f shown ∈ slots)
include h hc hlayout hslot

/-- A child of a node is written back as the part of the node that its field names. -/
theorem Written.child (hv : c.stored? (.field f) = some (.node m)) :
    ∃ e', e.step (.name f.word) = .ok e' ∧ Written p t (.node m) e' := by
  cases h with
  | @node _ d parent place a b kept made =>
    obtain ⟨fields,k,c',rfl,hg⟩ := kept.grown
    cases hc.symm.trans hg.cell
    cases hg.layout.symm.trans hlayout
    have hdata : ∀ d, Value.node m ≠ .ofDatum d := fun d h => by cases d <;> cases h
    obtain ⟨hint,-,d,x,y,hd,hy,hh⟩ := hg.holds hslot hv hdata (fun _ _ h => by cases h)
    have hchild : form = .child := by
      have hrow : ¬ HoldsList p t n k f d x y (.node m) := by
        intro hrow
        obtain ⟨_,_,-,-,hcovers,-⟩ := hrow.covers
        rcases hcovers with h | ⟨_,_,h,-⟩ <;> cases h
      have hpart := hh.isPart hdata
      cases form with
      | child => rfl
      | children => exact absurd hh hrow
      | formatting => exact absurd hh hrow
      | _ => cases hpart
    subst hchild
    simp only [Holds,HoldsChild] at hh
    by_cases htruth : d.truth = true
    · rw [if_pos htruth] at hh
      obtain ⟨m',z,hzy,heq,hkept⟩ := hh
      cases heq
      refine ⟨settled d,?_,.node hkept (Nat.le_trans hzy.1 (Nat.le_trans hy made))⟩
      rw [settled_record hg.kindOf hint]
      refine Datum.step_name ?_
      rw [lookup_gathered (slot_field_mem hslot),part_child hslot hd,if_pos htruth]
    · rw [if_neg htruth] at hh
      cases hh

/-- A list of nodes that a node holds is written back as the part of the node that its field names. -/
theorem Written.row {held : Value} (hv : c.stored? (.field f) = some held) (hbehind : behind held t = .ok (.list l))
    (hl : t.lists[l.index]? = some lc) (hnodes : lc.flavour = .nodes) :
    ∃ e', e.step (.name f.word) = .ok e' ∧ Written p t (.list l) e' := by
  cases h with
  | @node _ d parent place a b kept made =>
    obtain ⟨fields,k,c',rfl,hg⟩ := kept.grown
    cases hc.symm.trans hg.cell
    cases hg.layout.symm.trans hlayout
    have hdata : ∀ d, held ≠ .ofDatum d := by
      rintro d rfl
      cases d <;> cases hbehind
    have hplain : ∀ l lc, held = .list l → t.lists[l.index]? = some lc → lc.flavour ≠ .plain := by
      rintro l' lc' rfl hl' hplain
      cases hbehind
      cases hl.symm.trans hl'
      rw [hnodes] at hplain
      cases hplain
    obtain ⟨hint,hr,d,x,y,hd,hy,hh⟩ := hg.holds hslot hv hdata hplain
    have hpart := hh.isPart hdata
    obtain ⟨hform,hrow⟩ : form.isList = true ∧ HoldsList p t n k f d x y held := by
      cases form with
      | children => exact ⟨rfl,hh⟩
      | formatting => exact ⟨rfl,hh⟩
      | child =>
        simp only [Holds,HoldsChild] at hh
        split at hh
        · obtain ⟨m,_,-,rfl,-⟩ := hh
          cases hbehind
        · subst hh
          cases hbehind
      | _ => cases hpart
    obtain ⟨vs,z,hzy,hkept,hcovers,hcell⟩ := hrow.covers
    cases hbehind.symm.trans (behind_covers hcovers)
    cases hl.symm.trans hcell
    obtain ⟨ds,hrow,hds⟩ := hkept.items
    refine ⟨.list (ds.map settled),?_,.list hl hnodes hrow (Nat.le_trans hzy.1 (Nat.le_trans hy made))⟩
    rw [settled_record hg.kindOf hint]
    refine Datum.step_name ?_
    rw [lookup_gathered (slot_field_mem hslot),part_list hslot hform hd,hr]
    rcases hds with rfl | ⟨rfl,rfl | rfl⟩
    · simp [settled,settledEach_eq,Datum.asItems]
    · rfl
    · rfl

end Slots

end Steps

/-- Whatever keys lead to is written back as the part at these keys. -/
theorem Store.Reaches.written {root : ListId} {whole : Datum} (h : t.Reaches root keys x)
    (hroot : Written p t (.list root) whole) : ∃ e, whole.follow keys = .ok e ∧ Written p t x e := by
  induction h with
  | root => exact ⟨whole,rfl,hroot⟩
  | item _ cell member ih =>
    obtain ⟨e,hfollow,he⟩ := ih
    obtain ⟨e',hstep,he'⟩ := he.item cell member
    exact ⟨e',Datum.follow_snoc hfollow hstep,he'⟩
  | child _ cell layout slot held ih =>
    obtain ⟨e,hfollow,he⟩ := ih
    obtain ⟨e',hstep,he'⟩ := he.child cell layout slot held
    exact ⟨e',Datum.follow_snoc hfollow hstep,he'⟩
  | list _ cell layout slot stored hbehind behindCell nodes ih =>
    obtain ⟨e,hfollow,he⟩ := ih
    obtain ⟨e',hstep,he'⟩ := he.row cell layout slot stored hbehind behindCell nodes
    exact ⟨e',Datum.follow_snoc hfollow hstep,he'⟩

end Writing

section Rooting
variable {t : Store} {w : ViewId} {root : ListId} {height : Nat} {keys : List Key}

/-- Climbing from parent to parent leads to a document, in no more steps than given. -/
def Store.Rooted (t : Store) (w : ViewId) (steps : Nat) (v : Value) : Prop :=
  ∀ fuel, steps ≤ fuel → rootAt fuel v t = .ok (.view w)

theorem Store.Rooted.step (h : t.Rooted w steps parent) (hparent : parentOf v t = .ok parent) (hv : ∀ u, v ≠ .view u) :
    t.Rooted w (steps + 1) v := by
  intro fuel hfuel
  obtain _ | fuel := fuel
  · omega
  have hclimb : rootAt (fuel + 1) v = (do rootAt fuel (← parentOf v)) := by
    cases v with
    | view u => exact absurd rfl (hv u)
    | _ => rfl
  rw [hclimb,Read.bind_known hparent]
  exact h fuel (by omega)

theorem Store.Hangs.rooted {place : Attr} (h : t.Hangs parent place m) (hparent : t.Rooted w steps parent) :
    t.Rooted w (steps + 1) (.node m) := by
  obtain ⟨c,hc,hp,-⟩ := h
  have hparentOf := parentOf_node hc
  rw [hp] at hparentOf
  exact hparent.step hparentOf (fun _ h => by cases h)

/-- What climbing has to say of a value that keys lead to: a node is rooted, and so are a list that is not that of
the document itself and the items of any list. -/
def Store.RootedAt (t : Store) (w : ViewId) (keys : List Key) : Value → Prop
  | .list l => (keys ≠ [] → t.Rooted w (keys.length + 1) (.list l)) ∧
      ∀ lc m, t.lists[l.index]? = some lc → .node m ∈ lc.items → t.Rooted w (keys.length + 2) (.node m)
  | v => t.Rooted w (keys.length + 1) v

theorem Store.Document.rootedAt (h : t.Document w root height) (hx : t.Reaches root keys x) : t.RootedAt w keys x := by
  induction hx with
  | root =>
    obtain ⟨vc,hw,hform,-⟩ := h.view
    obtain ⟨ms,hl,hms⟩ := h.rows
    have htop : t.Rooted w 1 (.view w) := by
      intro fuel hfuel
      obtain _ | fuel := fuel
      · omega
      change (Read.view w >>= _) t = _
      rw [Read.view_known hw,hform]
      rfl
    refine ⟨fun hne => absurd rfl hne,fun lc m hlc hm => ?_⟩
    cases hl.symm.trans hlc
    obtain ⟨m',hm',heq⟩ := List.mem_map.mp hm
    cases heq
    exact (hms.hang m hm').rooted htop
  | @item keys l lc k m above cell member ih =>
    have hrooted := ih.2 lc m cell (List.mem_of_getElem? member)
    change t.Rooted w _ _
    rwa [List.length_append,List.length_singleton]
  | @child keys n c slots form f shown m above cell layout slot held ih =>
    obtain ⟨htree,-,-,-⟩ | _ := h.reaches above
    obtain ⟨i,rfl,hs⟩ := htree.stands cell
    cases hs.layout.symm.trans layout
    obtain ⟨-,hangs,-⟩ := hs.child slot held
    change t.Rooted w _ _
    rw [List.length_append,List.length_singleton]
    exact hangs.rooted ih
  | @list keys n c slots form f shown held l lc above cell layout slot stored hbehind behindCell nodes ih =>
    obtain ⟨htree,-,-,-⟩ | _ := h.reaches above
    obtain ⟨i,rfl,hs⟩ := htree.stands cell
    obtain ⟨-,ms,rfl,hms⟩ := hs.row stored hbehind behindCell nodes
    have hown := Store.Rooted.step ih (parentOf_list behindCell rfl rfl) (fun _ h => by cases h)
    change (_ → t.Rooted w _ _) ∧ _
    rw [List.length_append,List.length_singleton]
    refine ⟨fun _ => hown,fun lc m hlc hm => ?_⟩
    cases behindCell.symm.trans hlc
    obtain ⟨m',hm',heq⟩ := List.mem_map.mp hm
    cases heq
    intro fuel hfuel
    exact (hms.hang m hm').rooted ih fuel (by omega)

theorem Store.Document.rootOf (h : t.Document w root height) (hx : t.Reaches root keys x) (hkeys : keys ≠ []) :
    CodeTree.rootOf x t = .ok (.view w) := by
  have hdepth := h.depth
  have hrooted := h.rootedAt hx
  change rootAt (2 * t.depth) x t = _
  cases h.reaches hx with
  | node tree short climbs leads => exact hrooted _ (by omega)
  | list cell items nodes trees short climbs itemsHeld goesOn covers leads => exact hrooted.1 hkeys _ (by omega)

end Rooting

section Asking
variable {p : Parser} {t : Store}

theorem attr_node_computed {property : NodeId → Read Value} (hword : nodeProperties.lookup word = some property)
    (hv : property n t = .ok v) : attr (.node n) word t = .ok v := by
  obtain ⟨D,hD⟩ := t.depth_pos
  change attrAt t.depth (.node n) word t = _
  rw [hD]
  unfold attrAt
  dsimp only
  rw [hword]
  unfold Read.orElseMissing
  dsimp only
  rw [hv]

theorem attr_list_computed {property : Value → Read Value} (hl : t.lists[l.index]? = some lc) (hnodes : lc.flavour = .nodes)
    (hword : listProperties.lookup word = some property) (hv : property (.list l) t = .ok v) :
    attr (.list l) word t = .ok v := by
  obtain ⟨D,hD⟩ := t.depth_pos
  change attrAt t.depth (.list l) word t = _
  rw [hD]
  unfold attrAt
  dsimp only
  rw [Read.list_known hl,hnodes,if_pos (by rfl),hword]
  unfold Read.orElseMissing
  dsimp only
  rw [hv]

theorem attr_box {boxOf : Value → Read Box} {box : Box} (hx : (∃ n c, x = .node n ∧ t.nodes[n.index]? = some c) ∨
      ∃ l lc, x = .list l ∧ t.lists[l.index]? = some lc ∧ lc.flavour = .nodes)
    (hnode : nodeProperties.lookup word = some (fun n => do return .box (← boxOf (.node n))))
    (hlist : listProperties.lookup word = some (fun v => do return .box (← boxOf v))) (hbox : boxOf x t = .ok box) :
    attr x word t = .ok (.box box) := by
  have hanswer : (do return Value.box (← boxOf x) : Read Value) t = .ok (.box box) := by
    rw [Read.bind_known hbox]
    rfl
  rcases hx with ⟨n,c,rfl,-⟩ | ⟨l,lc,rfl,hl,hnodes⟩
  · exact attr_node_computed hnode hanswer
  · exact attr_list_computed hl hnodes hlist hanswer

theorem Store.Document.absolute_box {root : ListId} {height : Nat} {keys : List Key} {whole : Datum} {box : Box}
    (hdoc : t.Document w root height) (hwhole : snapshot (.view w) t = .ok whole) (hx : t.Reaches root keys x) (hkeys : keys ≠ [])
    (hbox : whole.boxAt keys = .ok box) : attr x "absolute_bounding_box" t = .ok (.box box) := by
  have hreached := hdoc.reaches hx
  have hin : boxInDocument x t = .ok box := by
    unfold boxInDocument boxWithin
    rw [Read.bind_known (hreached.route hdoc.depth).1,Read.bind_known (hdoc.rootOf hx hkeys),Read.bind_known hwhole,
      List.append_nil,hbox]
    rfl
  exact attr_box hreached.exists_cell rfl rfl hin

/-- A new document is written back as its list is: item by item, as what the parser answered settles. -/
theorem newDocument_written {source : String} {s : Store} (h : newDocument source p s = .ok (.view w) t) :
    ∃ d ds root, p source = .ok d ∧ (d = .list ds ∨ ds = [] ∧ (d = .text "" ∨ d = .record [])) ∧
      behind (.view w) t = .ok (.list root) ∧ Written p t (.list root) (.list (ds.map settled)) ∧
      snapshot (.view w) t = .ok (.list (ds.map settled)) := by
  obtain ⟨d,w',root,a,b,vs,shown,hd,heq,hkept,hb,hlist,hview,-⟩ := newDocument_made h
  cases heq
  obtain ⟨ds,hrow,hds⟩ := hkept.items
  have hwritten : Written p t (.list root) (.list (ds.map settled)) := .list hlist rfl hrow hb.1
  refine ⟨d,ds,root,hd,hds,behind_view hview rfl,hwritten,?_⟩
  have hw := Store.lt_views_of_get hview
  obtain ⟨D,hD,hsize⟩ : ∃ D, t.depth = D + 1 ∧ t.nodes.size < D := by
    refine ⟨t.depth - 1,?_,?_⟩ <;> unfold Store.depth <;> omega
  change snapshotAt t.depth (.view w) t = _
  rw [hD]
  unfold snapshotAt
  dsimp only
  rw [Read.view_known hview]
  exact hwritten.snapshotAt hsize

/-- Every node of a new document was built for its place. -/
theorem newDocument_planted {source : String} {s : Store} {root : ListId} {keys : List Key} {n : NodeId} {c : NodeCell}
    (h : newDocument source p s = .ok (.view w) t) (hroot : behind (.view w) t = .ok (.list root))
    (hreach : t.Reaches root keys (.node n)) (hc : t.nodes[n.index]? = some c) :
    ∃ parent place a b fields, Grown p t a b n parent place fields c.kind c ∧ b.nodes ≤ t.nodes.size := by
  obtain ⟨_,_,_,-,-,hroot',hwritten,-⟩ := newDocument_written h
  cases hroot.symm.trans hroot'
  obtain ⟨e,-,he⟩ := hreach.written hwritten
  cases he with
  | @node _ d parent place a b kept made =>
    obtain ⟨fields,k,c',rfl,hg⟩ := kept.grown
    cases hc.symm.trans hg.cell
    obtain rfl := hg.kind
    exact ⟨parent,place,a,b,fields,hg,made⟩

/-- Boxes cut out the right text. For every node or list that the text of a new document shows, its box in the
document cuts its text out of that of the document, unless it is an alias: then the box is empty. Its own box is
the one that it has when it is taken for the whole, and cuts all of its text out of it. -/
theorem absolute_bounding_box_cut {source : String} {s : Store} {w : ViewId} {text : String}
    (h : newDocument source p s = .ok (.view w) t) (htext : textOf (.view w) t = .ok text) (hreturn : '\r' ∉ text.toList) :
    ∃ root whole, behind (.view w) t = .ok (.list root) ∧ snapshot (.view w) t = .ok whole ∧
      ∀ keys x e, keys ≠ [] → t.Reaches root keys x → whole.Part keys e → ∃ part box own,
        snapshot x t = .ok e ∧ textOf x t = .ok part ∧
        attr x "absolute_bounding_box" t = .ok (.box box) ∧ box.cut text = (if endsPlainly keys then part else "") ∧
        attr x "bounding_box" t = .ok (.box own) ∧ e.boxAt [] = .ok own ∧ own.cut part = part := by
  obtain ⟨root',height,hdoc⟩ := newDocument_rooted h
  obtain ⟨-,ds,root,-,-,hbehind,hwritten,hwhole⟩ := newDocument_written h
  obtain rfl : root = root' := Value.list.inj (Except.ok.inj (hbehind.symm.trans hdoc.rooted))
  refine ⟨root,_,hbehind,hwhole,fun keys x e hkeys hx hpart => ?_⟩
  have hrender := (textOf_ok hwhole).mp htext
  obtain ⟨part,box,hpartText,hinside,hbox,hcut⟩ := hpart.cut_boxAt hkeys hrender hreturn
  obtain ⟨own,hown,hownCut⟩ := Datum.cut_box hpartText (fun hmem => hreturn (hinside.subset hmem))
  obtain ⟨e',hfollow,he'⟩ := hx.written hwritten
  cases hpart.follow.symm.trans hfollow
  have hsnapshot := he'.snapshot
  have hitsOwn : ownBox x t = .ok own := by
    unfold ownBox
    rw [Read.bind_known hsnapshot,hown]
    rfl
  exact ⟨part,box,own,hsnapshot,(textOf_ok hsnapshot).mpr hpartText,hdoc.absolute_box hwhole hx hkeys hbox,hcut,
    attr_box (hdoc.reaches hx).exists_cell rfl rfl hitsOwn,hown,hownCut⟩

/-- The context `a as b`. -/
def aliasedContext : Datum :=
  .record [("type",.text "with_context_item"),("value",nameDatum "a"),
    ("first_formatting",.list [spaceDatum]),("second_formatting",.list [spaceDatum]),
    ("as",nameDatum "b")]

/-- A parser that takes every text for that context. -/
def aliasParser : Parser := fun _ => .ok (.list [aliasedContext])

/-- The box of the alias in `a as b` is empty. -/
theorem absolute_bounding_box_cut_alias : ∃ w t root m box,
    newDocument "a as b" aliasParser .empty = .ok (.view w) t ∧ textOf (.view w) t = .ok "a as b" ∧
      t.Reaches root [.index 0,.name "as"] (.node m) ∧ textOf (.node m) t = .ok "b" ∧
      attr (.node m) "absolute_bounding_box" t = .ok (.box box) ∧ box.cut "a as b" = "" := by
  have hrun : (newDocument "a as b").succeeds aliasParser .empty = true := by decide +kernel
  obtain ⟨v,t,h⟩ := Edit.succeeds_iff.mp hrun
  obtain ⟨w,_,_,rfl,-⟩ := newDocument_document h
  obtain ⟨root,_,_,n,_,_,c,hbehind,hreach,hg⟩ := newDocument_grown h rfl
    (by decide +kernel : kindOf _ = some .withContextItem)
  have hslot : Slot.field .child .alias (.whenSet [.alias]) ∈ Kind.layout .withContextItem := by decide
  obtain ⟨d,v,x,y,hd,hv,-,-,hh⟩ := hg.slot (by decide) hslot
  obtain rfl : nameDatum "b" = d := Option.some.inj hd
  obtain ⟨m,-,-,rfl,-⟩ := hh
  have hreaches : t.Reaches root [.index 0,.name "as"] (.node m) :=
    .child hreach hg.cell hg.layout hslot hv
  obtain ⟨_,ds,-,hparse,hds,-,-,hwhole⟩ := newDocument_written h
  cases hparse
  rcases hds with hds | ⟨-,hds | hds⟩ <;> cases hds
  have htext : textOf (.view w) t = .ok "a as b" := (textOf_ok hwhole).mpr rfl
  have hpart : (Datum.list ([aliasedContext].map settled)).Part [.index 0,.name "as"]
      (nameDatum "b") :=
    .item rfl (.slot (f := .alias) rfl hslot rfl rfl rfl (.here _))
  obtain ⟨root',whole,hbehind',hwhole',hboxes⟩ := absolute_bounding_box_cut h htext (by decide)
  cases hwhole.symm.trans hwhole'
  cases hbehind.symm.trans hbehind'
  obtain ⟨part,box,own,hsnapshot,hpartText,hbox,hcut,-⟩ := hboxes _ _ _ (by simp) hreaches hpart
  have hb : textOf (.node m) t = .ok "b" := (textOf_ok hsnapshot).mpr rfl
  exact ⟨w,t,_,m,box,h,htext,hreaches,hb,hbox,hcut⟩

end Asking

end CodeTree
