import Mathlib.Data.Nat.Find
import CodeTree.Session.Step
import CodeTree.Proofs.Settling

/-! # Trees

What makes the cells below a node a tree. Every slot of the node holds plain data, a child, or a list of
nodes, and what hangs in a slot names the node and the field it hangs at. A tree has a height: each level
down there is one less of it, so no node lies below itself. Every node that was built is the root of a tree
that is no higher than the number of nodes made for it, and a new document is a row of such trees.
-/
namespace CodeTree
variable {place : Attr} {d : Datum} {f : Field} {form : Form} {a b : Mark} {i first height : Nat} {n : NodeId} {p : Parser}
  {t s : Store} {source : String} {parent v : Value}

section Definitions
variable (t : Store)

/-- A node names what it hangs at. -/
def Store.Hangs (parent : Value) (place : Attr) (m : NodeId) : Prop :=
  ∃ c, t.nodes[m.index]? = some c ∧ c.parent = parent ∧ c.place = some place

/-- Nodes that hang at one place, no two of them the same. -/
structure Store.Siblings (P : NodeId → Prop) (parent : Value) (place : Attr) (ms : List NodeId) : Prop where
  nodup : ms.Nodup
  hang : ∀ m ∈ ms, t.Hangs parent place m
  each : ∀ m ∈ ms, P m

/-- A value stands for a list: it is the list, or a view of it. -/
def Store.Covers (v : Value) (l : ListId) : Prop :=
  v = .list l ∨ ∃ w c, v = .view w ∧ t.views[w.index]? = some c ∧ c.target = .list l ∧ c.extra = []

/-- What a field of a node may hold. A list of nodes hangs at the field, bare or behind a view; spacing
that was set anew is a plain list instead, of nodes that hang at the delimiter. -/
inductive Store.Bears (P : NodeId → Prop) (n : NodeId) (f : Field) : Form → Value → Prop where
  | datum {form : Form} (d : Datum) (isText : form.isText = true) : Store.Bears P n f form (.ofDatum d)
  | empty : Store.Bears P n f .child .none
  | child {m : NodeId} (hangs : t.Hangs (.node n) (.field f) m) (below : P m) : Store.Bears P n f .child (.node m)
  | row {form : Form} {v : Value} {l : ListId} {ms : List NodeId} (isList : form.isList = true) (covers : t.Covers v l)
      (cell : t.lists[l.index]? = some ⟨.nodes,ms.map .node,.node n,some (.field f),[]⟩)
      (siblings : t.Siblings P (.node n) (.field f) ms) : Store.Bears P n f form v
  | loose {l : ListId} {c : ListCell} {ms : List NodeId} (cell : t.lists[l.index]? = some c) (plain : c.flavour = .plain)
      (items : c.items = ms.map .node) (siblings : t.Siblings P (.node n) (.field .delimiter) ms) :
      Store.Bears P n f .formatting (.list l)

/-- A value is a plain list. -/
def Store.Loose (v : Value) : Prop := ∃ l c, v = .list l ∧ t.lists[l.index]? = some c ∧ c.flavour = .plain

/-- A node goes by its kind, stores nothing but its fields, and each of them bears what it may; plain lists
under two of them have no item in common. -/
structure Store.Stands (P : NodeId → Prop) (n : NodeId) (c : NodeCell) : Prop where
  cell : t.nodes[n.index]? = some c
  type : c.stored? (.field .type) = some (.text c.kind.word)
  own : ∀ a v, c.stored? a = some v → a = .field .type ∨ ∃ f ∈ slotFields c.kind.layout, a = .field f
  bears : ∀ form f shown, .field form f shown ∈ c.kind.layout → ∃ v, c.stored? (.field f) = some v ∧ t.Bears P n f form v
  apart : ∀ f g v w, f ≠ g → c.stored? (.field f) = some v → c.stored? (.field g) = some w →
    t.Loose v → t.Loose w → Apart t v w

/-- A node and what is below it is a tree of no more than the given height. -/
def Store.Tree : Nat → NodeId → Prop
  | 0, _ => False
  | height + 1, n => ∃ c, t.Stands (Store.Tree height) n c

/-- A tree whose nodes are all numbered from some number on. -/
def Store.TreeFrom (first : Nat) : Nat → NodeId → Prop
  | 0, _ => False
  | height + 1, n => first ≤ n.index ∧ ∃ c, t.Stands (Store.TreeFrom first height) n c

/-- A document and the list behind it, which is a row of trees. -/
structure Store.Document (w : ViewId) (root : ListId) (height : Nat) : Prop where
  view : ∃ c, t.views[w.index]? = some c ∧ c.form = .document ∧ c.target = .list root ∧ c.place = none ∧
    c.parent = some .none ∧ c.extra = []
  rows : ∃ ms : List NodeId, t.lists[root.index]? = some ⟨.nodes,ms.map .node,.none,some .root,[]⟩ ∧
    t.Siblings (t.Tree height) (.view w) .root ms
  depth : height + 2 ≤ t.depth

end Definitions

section Trees
variable {t : Store} {P Q : NodeId → Prop} {n : NodeId}

theorem Store.Siblings.mono {ms : List NodeId} (h : t.Siblings P parent place ms) (hPQ : ∀ m, P m → Q m) :
    t.Siblings Q parent place ms :=
  ⟨h.nodup,h.hang,fun m hm => hPQ m (h.each m hm)⟩

/-- A field bears in another store what it bears if that store keeps the nodes below, the lists of the node and the views. -/
theorem Store.Bears.carry (h : t.Bears P n f form v)
    (hhangs : ∀ {parent place m}, P m → t.Hangs parent place m → s.Hangs parent place m)
    (hlists : ∀ {l : ListId} {c}, t.lists[l.index]? = some c → (c.flavour = .nodes → c.parent = .node n) → s.lists[l.index]? = some c)
    (hcovers : ∀ {v l}, t.Covers v l → s.Covers v l) (hPQ : ∀ m, P m → Q m) : s.Bears Q n f form v := by
  have hsiblings : ∀ {place ms}, t.Siblings P (.node n) place ms → s.Siblings Q (.node n) place ms := fun hms =>
    ⟨hms.nodup,fun m hm => hhangs (hms.each m hm) (hms.hang m hm),fun m hm => hPQ m (hms.each m hm)⟩
  cases h with
  | datum d hform => exact .datum d hform
  | empty => exact .empty
  | child hangs below => exact .child (hhangs below hangs) (hPQ _ below)
  | row hform covers cell siblings => exact .row hform (hcovers covers) (hlists cell (fun _ => rfl)) (hsiblings siblings)
  | loose cell plain items siblings =>
    exact .loose (hlists cell (fun hnodes => by rw [plain] at hnodes; cases hnodes)) plain items (hsiblings siblings)

theorem Store.Bears.mono (h : t.Bears P n f form v) (hPQ : ∀ m, P m → Q m) : t.Bears Q n f form v :=
  h.carry (fun _ hm => hm) (fun hl _ => hl) (fun hl => hl) hPQ

theorem Store.Stands.mono {c : NodeCell} (h : t.Stands P n c) (hPQ : ∀ m, P m → Q m) : t.Stands Q n c := by
  refine ⟨h.cell,h.type,h.own,fun form f shown hslot => ?_,h.apart⟩
  obtain ⟨v,hv,hb⟩ := h.bears form f shown hslot
  exact ⟨v,hv,hb.mono hPQ⟩

theorem Store.Tree.mono {j : Nat} (h : t.Tree i n) (hij : i ≤ j) : t.Tree j n := by
  induction i generalizing j n with
  | zero => exact h.elim
  | succ i ih =>
    obtain _ | j := j
    · omega
    obtain ⟨c,hc⟩ := h
    exact ⟨c,hc.mono (fun m hm => ih hm (by omega))⟩

theorem Store.TreeFrom.tree (h : t.TreeFrom first i n) : t.Tree i n := by
  induction i generalizing n with
  | zero => exact h.elim
  | succ i ih =>
    obtain ⟨-,c,hc⟩ := h
    exact ⟨c,hc.mono (fun m hm => ih hm)⟩

theorem Store.Tree.least (h : t.Tree i n) : ∃ j, j ≤ i ∧ t.Tree j n ∧ ∀ k, k < j → ¬ t.Tree k n := by
  classical
  have hex : ∃ j, t.Tree j n := ⟨i,h⟩
  exact ⟨Nat.find hex,Nat.find_min' hex h,Nat.find_spec hex,fun k hk => Nat.find_min hex hk⟩

end Trees

section Building

/-- What a node keeps of plain data is plain data. -/
theorem Kind.keeps_ofDatum (k : Kind) (f : Field) (d : Datum) : ∃ e, k.keeps f (.ofDatum d) = .ofDatum e := by
  unfold Kind.keeps
  split
  · next s heq =>
    rw [heq]
    split
    · split
      · exact ⟨.text "",rfl⟩
      · exact ⟨.text s,rfl⟩
    · split
      · next d' _ _ => exact ⟨.text (String.singleton _),rfl⟩
      · exact ⟨.text s,rfl⟩
    · exact ⟨.text s,rfl⟩
  · exact ⟨d,rfl⟩

/-- Every node that was built from a datum and left alone is a tree, as high as nodes were made, and all of it was
made then. -/
def Raises (d : Datum) : Prop :=
  ∀ ⦃p : Parser⦄ ⦃a b : Mark⦄ ⦃n : NodeId⦄ ⦃parent : Value⦄ ⦃place : Option Attr⦄ ⦃t : Store⦄ ⦃first height : Nat⦄,
    Kept (build d parent place) p a b n t → first ≤ a.nodes → b.nodes ≤ a.nodes + height → t.TreeFrom first height n

theorem Kept.index {place : Option Attr} (h : Kept (build d parent place) p a b n t) : n.index = a.nodes := by
  obtain ⟨_,_,_,-,hg⟩ := h.grown
  exact hg.first

theorem Kept.hangs (h : Kept (build d parent (some place)) p a b n t) : t.Hangs parent place n := by
  obtain ⟨_,_,c,-,hg⟩ := h.grown
  exact ⟨c,hg.cell,hg.parent,hg.place⟩

/-- The nodes of a row are numbered in order, so no two of them are the same. -/
theorem Kept.siblings {ds : List Datum} (ih : ∀ d ∈ ds, Raises d) {vs : List Value}
    (h : Kept (buildEach ds parent (some place)) p a b vs t) (hfirst : first ≤ a.nodes)
    (hheight : b.nodes ≤ a.nodes + height) :
    ∃ ms : List NodeId, vs = ms.map .node ∧ t.Siblings (t.TreeFrom first height) parent place ms ∧
      ∀ m ∈ ms, a.nodes ≤ m.index := by
  induction ds generalizing a vs with
  | nil =>
    cases h.nil
    exact ⟨[],rfl,⟨List.nodup_nil,by simp,by simp⟩,by simp⟩
  | cons d ds ihds =>
    obtain ⟨n,rest,e,rfl,hd,hds,hae,heb⟩ := h.cons
    have hn := hd.index
    have hne : a.nodes < e.nodes := by
      obtain ⟨_,_,_,-,hg⟩ := hd.grown
      exact hg.le.1
    obtain ⟨ms,rfl,hms,hlow⟩ := ihds (List.forall_mem_cons.mp ih).2 hds (by omega) (by have := hae.1; omega)
    have hnew : n ∉ ms := by
      intro hm
      have := hlow n hm
      omega
    refine ⟨n :: ms,rfl,⟨List.nodup_cons.mpr ⟨hnew,hms.nodup⟩,?_,?_⟩,?_⟩
    · intro m hm
      rcases List.mem_cons.mp hm with rfl | hm
      · exact hd.hangs
      · exact hms.hang m hm
    · intro m hm
      rcases List.mem_cons.mp hm with rfl | hm
      · exact ih d List.mem_cons_self hd hfirst (by have := heb.1; omega)
      · exact hms.each m hm
    · intro m hm
      rcases List.mem_cons.mp hm with rfl | hm
      · exact Nat.le_of_eq hn.symm
      · exact Nat.le_trans (Nat.le_of_lt hne) (hlow m hm)

section Parts
variable {p : Parser} {t : Store} {a b : Mark} {n : NodeId} {k : Kind} {f : Field} {d : Datum} {v : Value}
  {first height : Nat}

theorem HoldsList.covers_within (h : HoldsList p t n k f d a b v) :
    ∃ vs e, e ≤ b ∧ Kept (buildItems d (.node n) (some (.field f))) p a e vs t ∧ t.Covers v ⟨e.lists⟩ ∧
      t.lists[e.lists]? = some ⟨.nodes,vs,.node n,some (.field f),[]⟩ ∧ e.lists < b.lists := by
  obtain ⟨vs,e,heb,hkept,hlt,hlist,hv⟩ := h
  refine ⟨vs,e,heb,hkept,?_,hlist,hlt⟩
  cases hview : k.viewForm f with
  | none =>
    rw [hview] at hv
    exact .inl hv
  | some vf =>
    rw [hview] at hv
    obtain ⟨_,w,shown,style,rfl,-,-,hcell,-,-⟩ := hv
    exact .inr ⟨w,_,rfl,hcell,rfl,rfl⟩

theorem HoldsList.covers (h : HoldsList p t n k f d a b v) :
    ∃ vs e, e ≤ b ∧ Kept (buildItems d (.node n) (some (.field f))) p a e vs t ∧ t.Covers v ⟨e.lists⟩ ∧
      t.lists[e.lists]? = some ⟨.nodes,vs,.node n,some (.field f),[]⟩ := by
  obtain ⟨vs,e,heb,hkept,hcovers,hlist,-⟩ := h.covers_within
  exact ⟨vs,e,heb,hkept,hcovers,hlist⟩

theorem HoldsList.bears (ih : ∀ ds, d = .list ds → ∀ e ∈ ds, Raises e) (h : HoldsList p t n k f d a b v)
    (hfirst : first ≤ a.nodes) (hheight : b.nodes ≤ a.nodes + height) (hform : form.isList = true) :
    t.Bears (t.TreeFrom first height) n f form v := by
  obtain ⟨vs,e,heb,hkept,hcovers,hlist⟩ := h.covers
  obtain ⟨ds,hrow,hds⟩ := hkept.items
  have hrows : ∀ e ∈ ds, Raises e := by
    rcases hds with rfl | ⟨rfl,-⟩
    · exact ih ds rfl
    · simp
  have hrange : e.nodes ≤ a.nodes + height := Nat.le_trans heb.1 hheight
  obtain ⟨ms,rfl,hms,-⟩ := hrow.siblings hrows hfirst hrange
  exact .row hform hcovers hlist hms

theorem Holds.bears (ih : Raises d) (ihs : ∀ ds, d = .list ds → ∀ e ∈ ds, Raises e) (h : Holds p t n k form f d a b v)
    (hfirst : first ≤ a.nodes) (hheight : b.nodes ≤ a.nodes + height) : t.Bears (t.TreeFrom first height) n f form v := by
  have htext : form.isText = true → v = k.keeps f (.ofDatum d) → t.Bears (t.TreeFrom first height) n f form v := by
    intro hform hv
    obtain ⟨e,he⟩ := k.keeps_ofDatum f d
    rw [hv,he]
    exact .datum e hform
  cases form with
  | text => exact htext rfl h
  | flag => exact htext rfl h
  | children | formatting => exact HoldsList.bears ihs h hfirst hheight rfl
  | child =>
    simp only [Holds,HoldsChild] at h
    split at h
    · obtain ⟨m,e,heb,rfl,hkept⟩ := h
      exact .child hkept.hangs (ih hkept hfirst (by have := heb.1; omega))
    · subst h
      exact .empty

theorem Holds.not_loose (h : Holds p t n k form f d a b v) : ¬ t.Loose v := by
  rintro ⟨l,c,rfl,hl,hplain⟩
  have hlist : HoldsList p t n k f d a b (.list l) → False := by
    intro hh
    obtain ⟨vs,e,-,-,hcovers,hcell⟩ := hh.covers
    rcases hcovers with hv | ⟨_,_,hv,-⟩
    · cases hv
      rw [hl] at hcell
      cases hcell
      cases hplain
    · cases hv
  have htext : ∀ {k : Kind}, Value.list l = k.keeps f (.ofDatum d) → False := by
    intro k hv
    obtain ⟨e,he⟩ := k.keeps_ofDatum f d
    rw [he] at hv
    cases e <;> cases hv
  cases form with
  | text => exact htext h
  | flag => exact htext h
  | children => exact hlist h
  | formatting => exact hlist h
  | child =>
    simp only [Holds,HoldsChild] at h
    split at h
    · obtain ⟨_,_,-,hv,-⟩ := h
      cases hv
    · cases h

end Parts

theorem Store.tree_space {m : NodeId} {place : Option Attr} (h : t.nodes[m.index]? = some (spaceCell parent place))
    (hfirst : first ≤ m.index) (hheight : 0 < height) : t.TreeFrom first height m := by
  obtain _ | height := height
  · omega
  have hstored : ∀ a v, (spaceCell parent place).stored? a = some v →
      a = .field .type ∧ v = .text "space" ∨ a = .field .value ∧ v = .text " " := by
    intro a v hv
    simp only [spaceCell,NodeCell.stored?,List.lookup_cons,List.lookup_nil] at hv
    split at hv
    · next ha =>
      cases hv
      exact .inl ⟨beq_iff_eq.mp ha,rfl⟩
    · split at hv
      · next ha =>
        cases hv
        exact .inr ⟨beq_iff_eq.mp ha,rfl⟩
      · cases hv
  refine ⟨hfirst,_,h,rfl,?_,?_,?_⟩
  · intro a v hv
    rcases hstored a v hv with ⟨rfl,-⟩ | ⟨rfl,-⟩
    · exact .inl rfl
    · exact .inr ⟨.value,List.mem_singleton_self _,rfl⟩
  · intro form f shown hslot
    have hslot : Slot.field form f shown = .field .text .value .always := List.mem_singleton.mp hslot
    cases hslot
    exact ⟨.text " ",rfl,.datum (.text " ") rfl⟩
  · rintro f g v w - hv - ⟨l,_,rfl,-⟩
    rcases hstored _ _ hv with ⟨-,h⟩ | ⟨-,h⟩ <;> cases h

theorem Spaces.bears {present : Bool} (h : Spaces t n a b present v) (hfirst : first ≤ a.nodes)
    (hheight : b.nodes ≤ a.nodes + height) : t.Bears (t.TreeFrom first height) n f .formatting v := by
  obtain ⟨l,items,rfl,-,-,hl,hitems⟩ := h
  cases present with
  | false =>
    cases hitems
    have hnone : t.Siblings (t.TreeFrom first height) (.node n) (.field .delimiter) [] := ⟨List.nodup_nil,by simp,by simp⟩
    exact .loose hl rfl rfl hnone
  | true =>
    obtain ⟨m,rfl,hma,hmb,hm⟩ := hitems
    have hone : t.Siblings (t.TreeFrom first height) (.node n) (.field .delimiter) [m] := by
      refine ⟨by simp,?_,?_⟩
      · intro m' hm'
        cases List.mem_singleton.mp hm'
        exact ⟨_,hm,rfl,rfl⟩
      · intro m' hm'
        cases List.mem_singleton.mp hm'
        exact Store.tree_space hm (by omega) (by omega)
    exact .loose hl rfl rfl hone

section Stands
variable {p : Parser} {t : Store} {a b : Mark} {n : NodeId} {parent : Value} {place : Option Attr}
  {fields : List (String × Datum)} {k : Kind} {c : NodeCell}

section Planted
variable (hg : Planted p t a b n parent place fields k c)
include hg

/-- Two fields with spacing that was set anew got it together, when an alias was stored. -/
theorem Planted.apart (hk : k ≠ .int) {g : Field} {x y : Bool} (hfg : f ≠ g) (hf : respaced k fields f = some x)
    (hg' : respaced k fields g = some y) {w : Value} (hv : c.stored? (.field f) = some v)
    (hw : c.stored? (.field g) = some w) : Apart t v w := by
  have halias : k = .dottedAsName ∨ k = .nameAsName := by
    rcases respaced_cases hf with ⟨rfl,rfl⟩ | ⟨h,-⟩
    · rcases respaced_cases hg' with ⟨-,rfl⟩ | ⟨h,-⟩
      · exact absurd rfl hfg
      · exact h
    · exact h
  have hlast : ∃ before, k.layout = before ++ [.field .text .target (.whenSet [.target])] := by
    rcases halias with rfl | rfl
    · exact ⟨_,(List.dropLast_append_getLast (List.cons_ne_nil _ _)).symm⟩
    · exact ⟨_,(List.dropLast_append_getLast (List.cons_ne_nil _ _)).symm⟩
  obtain ⟨before,hlayout⟩ := hlast
  have hsections := hg.sections hk
  rw [hlayout] at hsections
  obtain ⟨e,hsections⟩ := hsections.suffix
  obtain _ | _ | @⟨_,_,_,_,_,_,d,_,found,-,-,spaces,-,more⟩ := hsections
  have htarget : ∀ {f x}, respaced k fields f = some x → (f,x) ∈ respacing k .target d := by
    intro f x hf
    obtain ⟨g,-,d',hd',hx⟩ := mem_spacingOf (lookupLast_mem hf)
    obtain rfl : g = .target := by
      have hresp := respaces_of_mem hx
      rcases halias with rfl | rfl
      · cases g <;> first | rfl | cases hresp
      · cases g <;> first | rfl | cases hresp
    rw [found] at hd'
    cases hd'
    exact hx
  have hfree : ∀ f : Field, f ∉ slotFields [] ∧ f ∉ (spacingOf k fields []).map Prod.fst := by
    intro f
    simp [slotFields,spacingOf]
  exact spaces.apart _ (htarget hf) _ (htarget hg') (hfree _) (hfree _) hfg v w hv hw

theorem Planted.slot_bears (hfirst : first ≤ a.nodes)
    (ih : ∀ word d, lookupLast word fields = some d → Raises d ∧ ∀ ds, d = .list ds → ∀ e ∈ ds, Raises e)
    (hheight : b.nodes ≤ a.nodes + height) {shown : Shown} (hslot : .field form f shown ∈ k.layout) :
    ∃ v, c.stored? (.field f) = some v ∧ t.Bears (t.TreeFrom first height) n f form v ∧
      (t.Loose v → k ≠ .int ∧ ∃ present, respaced k fields f = some present) := by
  by_cases hint : k = .int
  · subst hint
    obtain ⟨-,i,-,-,hv⟩ := hg.number rfl
    have hslot : Slot.field form f shown = .field .text .value .always := List.mem_singleton.mp hslot
    cases hslot
    refine ⟨.int i,hv,.datum (.int i) rfl,?_⟩
    rintro ⟨_,_,h,-⟩
    cases h
  · obtain ⟨d,v,x,y,hd,hv,hx,hy,hh⟩ := hg.slot hint hslot
    refine ⟨v,hv,?_⟩
    cases hr : respaced k fields f with
    | none =>
      rw [Slotted,hr] at hh
      exact ⟨hh.bears (ih _ d hd).1 (ih _ d hd).2 (by omega) (by omega),fun h => absurd h hh.not_loose⟩
    | some present =>
      rw [Slotted,hr] at hh
      cases respaced_formatting hslot hr
      exact ⟨hh.bears (by omega) (by omega),fun _ => ⟨hint,present,rfl⟩⟩

end Planted

/-- A node that was filled stands if it stores nothing but its type and what its slots hold, and what was built for its
fields are trees. -/
theorem Planted.stands (hg : Planted p t a b n parent place fields k c)
    (hown : ∀ attr v, c.stored? attr = some v → attr = .field .type ∨ ∃ f ∈ slotFields k.layout, attr = .field f)
    (hfirst : first ≤ a.nodes)
    (ih : ∀ word d, lookupLast word fields = some d → Raises d ∧ ∀ ds, d = .list ds → ∀ e ∈ ds, Raises e)
    (hheight : b.nodes ≤ a.nodes + height) : t.Stands (t.TreeFrom first height) n c := by
  have hrespaced : ∀ f v, c.stored? (.field f) = some v → t.Loose v →
      k ≠ .int ∧ ∃ present, respaced k fields f = some present := by
    intro f v hv hloose
    rcases hown _ _ hv with htype | ⟨g,hslot,hfg⟩
    · cases htype
      rw [hg.type] at hv
      obtain ⟨_,_,rfl,-⟩ := hloose
      cases hv
    · cases hfg
      obtain ⟨form,shown,hslot⟩ := mem_slotFields hslot
      obtain ⟨v',hv',-,hr⟩ := hg.slot_bears hfirst ih hheight hslot
      cases hv.symm.trans hv'
      exact hr hloose
  refine ⟨hg.cell,by rw [hg.kind]; exact hg.type,by rw [hg.kind]; exact hown,?_,?_⟩
  · rw [hg.kind]
    intro form f shown hslot
    obtain ⟨v,hv,hb,-⟩ := hg.slot_bears hfirst ih hheight hslot
    exact ⟨v,hv,hb⟩
  · intro f g v w hfg hv hw hlv hlw
    obtain ⟨hint,x,hx⟩ := hrespaced f v hv hlv
    obtain ⟨-,y,hy⟩ := hrespaced g w hw hlw
    exact hg.apart hint hfg hx hy hv hw

theorem Grown.stands (hg : Grown p t a b n parent place fields k c) (hfirst : first ≤ a.nodes)
    (ih : ∀ word d, lookupLast word fields = some d → Raises d ∧ ∀ ds, d = .list ds → ∀ e ∈ ds, Raises e)
    (hheight : b.nodes ≤ a.nodes + 1 + height) : t.Stands (t.TreeFrom first height) n c :=
  hg.toPlanted.stands hg.own (Nat.le_succ_of_le hfirst) ih hheight

end Stands

/-- Every node that was built and left alone is the root of a tree. -/
theorem built_tree (d : Datum) : Raises d := by
  induction d using Datum.induct_built with
  | other d hd => exact fun _ _ _ _ _ _ _ _ _ h => (h.not_built hd).elim
  | record fields ih =>
    intro p a b n parent place t first height h hfirst hheight
    obtain ⟨_,k,c,heq,hg⟩ := h.grown
    cases heq
    have hle := hg.le.1
    dsimp only at hle
    obtain _ | height := height
    · omega
    exact ⟨by have := hg.first; omega,c,hg.stands hfirst (fun _ _ hd => ih hd) (by omega)⟩

end Building

section Documents

/-- What a new document leaves: the items that were built, the list of them, and a view of that list, which shows the
lines that were found when the items had just been built. -/
theorem newDocument_made (h : newDocument source p s = .ok v t) :
    ∃ d w root a b vs shown, p source = .ok d ∧ v = .view w ∧ Kept (buildItems d (.view w) (some .root)) p a b vs t ∧
      b ≤ t.mark ∧ t.lists[root.index]? = some ⟨.nodes,vs,.none,some .root,[]⟩ ∧
      t.views[w.index]? = some ⟨.document,.list root,shown,none,some .none,none,[]⟩ ∧ root.index = b.lists ∧
      ∃ u, lineItems true .none vs u = .ok shown ∧ u.Agree a b t := by
  unfold newDocument at h
  obtain ⟨d,_,hparse,h⟩ := Edit.bind_ok.mp h
  obtain ⟨hd,rfl⟩ := Edit.parse_ok.mp hparse
  obtain ⟨w,_,hview,h⟩ := Edit.bind_ok.mp h
  obtain ⟨rfl,rfl⟩ := Edit.newView_ok.mp hview
  obtain ⟨l,_,hlist,h⟩ := Edit.bind_ok.mp h
  unfold buildList at hlist
  obtain ⟨vs,u,hitems,hlist⟩ := Edit.bind_ok.mp hlist
  obtain ⟨rfl,rfl⟩ := Edit.newList_ok.mp hlist
  obtain ⟨_,hcell,h⟩ := Edit.ask_ok.mp h
  obtain ⟨shown,hlines,h⟩ := Edit.ask_ok.mp h
  obtain ⟨_,u₁,hlist,h⟩ := Edit.bind_ok.mp h
  obtain ⟨_,u₂,hview,h⟩ := Edit.bind_ok.mp h
  obtain ⟨rfl,rfl⟩ := Edit.pure_ok.mp h
  cases Edit.updateList_ok.mp hlist
  cases Edit.updateView_ok.mp hview
  have hgrows := (buildItems_adds d _ _).grows hitems
  have hlt : s.views.size < (s.addView ⟨.document,.none,[],none,some .none,none,[]⟩).views.size := by simp
  have hlast : u.Agree (s.addView ⟨.document,.none,[],none,some .none,none,[]⟩).mark u.mark
      (((u.addList ⟨.nodes,vs,.view ⟨s.views.size⟩,some .root,[]⟩).mapList ⟨u.lists.size⟩
        (fun c => { c with parent := .none })).mapView ⟨s.views.size⟩
          (fun c => { c with target := .list ⟨u.lists.size⟩, items := shown })) := by
    refine ⟨?_,?_,?_⟩
    · intro i _ _
      simp
    · intro i _ hi
      have hne : u.lists.size ≠ i := Nat.ne_of_gt hi
      simp only [Store.mapView_lists,Store.mapList_get,if_neg hne,Store.addList_get,if_neg (Ne.symm hne)]
    · intro i hi _
      have hne : s.views.size ≠ i := Nat.ne_of_lt (Nat.lt_of_lt_of_le hlt hi)
      simp only [Store.mapView_get,if_neg hne,Store.mapList_views,Store.addList_views]
  rw [Read.list_ok,Store.addList_get,if_pos rfl] at hcell
  rw [← Option.some.inj hcell] at hlines
  refine ⟨d,_,⟨u.lists.size⟩,_,u.mark,vs,shown,hd,rfl,(Kept.of_run hitems).agree hlast,?_,?_,?_,rfl,_,hlines,?_⟩
  · simp [Mark.le_def]
  · simp only [Store.mapView_lists,Store.mapList_get,if_pos,Store.addList_get,Option.map_some]
  · simp only [Store.mapView_get,if_pos,Store.mapList_views,Store.addList_views]
    rw [hgrows.views _ hlt,Store.addView_get,if_pos rfl]
    rfl
  · exact ((Store.grows_addList u _).agree _).symm.trans hlast

/-- A new document is a row of trees. -/
theorem newDocument_document (h : newDocument source p s = .ok v t) :
    ∃ w root height, v = .view w ∧ t.Document w root height := by
  obtain ⟨d,w,root,a,b,vs,shown,-,rfl,hkept,hb,hlist,hview,-⟩ := newDocument_made h
  obtain ⟨ds,hrow,-⟩ := hkept.items
  have hrange : b.nodes ≤ a.nodes + t.nodes.size := Nat.le_trans hb.1 (Nat.le_add_left _ _)
  obtain ⟨ms,rfl,hms,-⟩ := hrow.siblings (fun d _ => built_tree d) (Nat.zero_le _) hrange
  refine ⟨w,root,t.nodes.size,rfl,⟨_,hview,rfl,rfl,rfl,rfl,rfl⟩,⟨ms,hlist,hms.mono (fun _ hm => hm.tree)⟩,?_⟩
  have hroot := Store.lt_lists_of_get hlist
  have hw := Store.lt_views_of_get hview
  unfold Store.depth
  omega

theorem newDocument_rooted {w : ViewId} (h : newDocument source p s = .ok (.view w) t) : ∃ root height, t.Document w root height := by
  obtain ⟨_,root,height,heq,hdoc⟩ := newDocument_document h
  cases heq
  exact ⟨root,height,hdoc⟩

/-- A name. -/
def nameDatum (word : String) : Datum := .record [("type",.text "name"),("value",.text word)]

end Documents

end CodeTree
