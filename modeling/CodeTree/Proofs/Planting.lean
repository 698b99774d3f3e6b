import CodeTree.Proofs.Checking

/-! # What building leaves

A node that has been built, read off its cells. Every slot of its layout was filled with cells of a
range of its own, and the ranges follow each other in the order of the slots. Where storing a field
sets the spacing of fields that were filled before, what those held is gone.
-/
namespace CodeTree
variable {α : Type} {d : Datum} {f : Field} {x : Field × Bool} {form : Form} {k : Kind} {fields : List (String × Datum)}
  {slots : List Slot} {ms : List Value} {a b : Mark} {c : NodeCell} {n : NodeId} {place : Option Attr} {p : Parser}
  {shown : Shown} {u v s t : Store} {parent : Value}

/-- The cells that a run of an edit added are in a store as the run left them. -/
def Kept {α : Type} (e : Edit α) (p : Parser) (a b : Mark) (r : α) (t : Store) : Prop :=
  ∃ u v, u.mark = a ∧ v.mark = b ∧ e p u = .ok r v ∧ Store.Agree a b v t

theorem Kept.of_run {e : Edit α} {r : α} (h : e p u = .ok r v) : Kept e p u.mark v.mark r v :=
  ⟨u,v,rfl,rfl,h,Store.Agree.refl _ _ v⟩

theorem Kept.agree {e : Edit α} {r : α} (h : Kept e p a b r s) (hst : Store.Agree a b s t) : Kept e p a b r t := by
  obtain ⟨u,v,hu,hv,he,ha⟩ := h
  exact ⟨u,v,hu,hv,he,ha.trans hst⟩

theorem Kept.le {e : Edit α} {r : α} (hadd : Adds e) (h : Kept e p a b r t) : a ≤ b := by
  obtain ⟨u,v,rfl,rfl,he,-⟩ := h
  exact (hadd.grows he).mark

section Slots

/-- A view of a list, as it was made. The store at that time had the list and its items as they are now. -/
def Shows (t : Store) (f : Field) (form : ViewForm) (l : ListId) (a e b : Mark) (v : Value) : Prop :=
  ∃ u w shown style, v = .view w ∧ e.views ≤ w.index ∧ w.index < b.views ∧
    t.views[w.index]? = some ⟨form,.list l,shown,some (.field f),none,style,[]⟩ ∧
    Viewed u form (.list l) shown style ∧ u.Agree a ⟨e.nodes,e.lists + 1,e.views⟩ t

/-- A list of nodes that was built for a field, bare or in a view. -/
def HoldsList (p : Parser) (t : Store) (n : NodeId) (k : Kind) (f : Field) (d : Datum) (a b : Mark) (v : Value) : Prop :=
  ∃ ms e, e ≤ b ∧ Kept (buildItems d (.node n) (some (.field f))) p a e ms t ∧ e.lists < b.lists ∧
    t.lists[e.lists]? = some ⟨.nodes,ms,.node n,some (.field f),[]⟩ ∧
    match k.viewForm f with
    | none => v = .list ⟨e.lists⟩
    | some form => Shows t f form ⟨e.lists⟩ a e b v

/-- A child that was built for a field, or nothing. -/
def HoldsChild (p : Parser) (t : Store) (n : NodeId) (f : Field) (d : Datum) (a b : Mark) (v : Value) : Prop :=
  if d.truth then ∃ m e, e ≤ b ∧ v = .node m ∧ Kept (build d (.node n) (some (.field f))) p a e m t else v = .none

/-- What a field of a node holds after it was filled, with cells from one mark to another. -/
def Holds (p : Parser) (t : Store) (n : NodeId) (k : Kind) (form : Form) (f : Field) (d : Datum) (a b : Mark)
    (v : Value) : Prop :=
  match form with
  | .text | .flag => v = k.keeps f (.ofDatum d)
  | .child => HoldsChild p t n f d a b v
  | .children | .formatting => HoldsList p t n k f d a b v

/-- What the layouts keep to: only a list of children is shown through a view, only storing a text puts
it in order or sets spacing, and what is set then is formatting. -/
def Slot.fits (k : Kind) : Slot → Bool
  | .constant _ _ => true
  | .field form f _ =>
    ((k.viewForm f).isNone || form == .children) && (!k.respaces f || form == .text) &&
      (!(k == .assignment && f == .operator) || form == .text) && (f != .type || form == .text) &&
      (!([Field.firstFormatting,.secondFormatting,.thirdFormatting].contains f) || form == .formatting)

theorem layout_fits (k : Kind) : ∀ slot ∈ k.layout, slot.fits k = true := by
  cases k <;> decide

theorem type_slot (h : .field form .type shown ∈ k.layout) : form = .text := by
  have hfit := layout_fits k _ h
  simp only [Slot.fits,Bool.and_eq_true] at hfit
  simpa using hfit.1.2

def Form.isText (form : Form) : Bool := form == .text || form == .flag
def Form.isList (form : Form) : Bool := form == .children || form == .formatting
def Form.isChild (form : Form) : Bool := form == .child

/-- Counts the field of a slot among fields of one sort, if it is of that sort. -/
def Slot.add (sort : Form → Bool) (slot : Slot) (fs : List Field) : List Field :=
  match slot with
  | .field form f _ => if sort form then addField f fs else fs
  | .constant _ _ => fs

/-- One slot of a node has been filled. -/
structure SlotRun (p : Parser) (n : NodeId) (fields : List (String × Datum)) (c c' : NodeCell) (form : Form)
    (f : Field) (shown : Shown) (d : Datum) (s t : Store) : Prop where
  found : lookupLast f.word fields = some d
  grows : s.GrowsOff n t
  cell : t.nodes[n.index]? = some c'
  kind : c'.kind = c.kind
  parent : c'.parent = c.parent
  place : c'.place = c.place
  building : c'.building = c.building
  origin : c'.origin = c.origin
  texts : c'.texts = (Slot.field form f shown).add Form.isText c.texts
  lists : c'.lists = (Slot.field form f shown).add Form.isList c.lists
  children : c'.children = (Slot.field form f shown).add Form.isChild c.children
  stored : ∀ g, g ≠ f → g ∉ (respacing c.kind f d).map Prod.fst → c'.stored? (.field g) = c.stored? (.field g)
  others : ∀ word, c'.stored? (.other word) = c.stored? (.other word)
  held : ∃ v, c'.stored? (.field f) = some v ∧ Holds p t n c.kind form f d s.mark t.mark v
  spaces : Spaced t n c' (respacing c.kind f d) (· ≠ f) s.mark t.mark
  admits : form.isText = true → Admits p c.kind f d

/-- The cell of a node with the field of a slot counted among its fields. -/
def NodeCell.count (slot : Slot) (c : NodeCell) : NodeCell :=
  { c with texts := slot.add Form.isText c.texts, lists := slot.add Form.isList c.lists, children := slot.add Form.isChild c.children }

section Fill
variable {p : Parser} {n : NodeId} {fields : List (String × Datum)} {c : NodeCell} {s t : Store}
variable {f : Field} {shown : Shown}

theorem Stored.slotRun {s₀ s₁ : Store} {c₁ : NodeCell} {v : Value} (hn : n.index < s.nodes.size)
    (hl : lookupLast f.word fields = some d) (hg : s.Grows s₀) (hst : Stored n c c₁ f (respacing c.kind f d) v s₀ s₁)
    (hadmits : form.isText = true → Admits p c.kind f d)
    (hheld : Holds p (s₁.mapNode n (·.count (.field form f shown))) n c.kind form f d s.mark
      (s₁.mapNode n (·.count (.field form f shown))).mark v) :
    SlotRun p n fields c (c₁.count (.field form f shown)) form f shown d s
      (s₁.mapNode n (·.count (.field form f shown))) where
  found := hl
  grows := ((hg.off n).trans hst.grows).trans (Store.growsOff_mapNode _ _ _)
  cell := Store.mapNode_self hst.cell
  kind := hst.rewrites.kind
  parent := hst.rewrites.parent
  place := hst.rewrites.place
  building := hst.rewrites.building
  origin := hst.rewrites.origin
  texts := congrArg ((Slot.field form f shown).add Form.isText) hst.rewrites.texts
  lists := congrArg ((Slot.field form f shown).add Form.isList) hst.rewrites.lists
  children := congrArg ((Slot.field form f shown).add Form.isChild) hst.rewrites.children
  stored g hgf hgs := hst.rewrites.stored g (by simpa using ⟨by simpa using hgs,hgf⟩)
  others := hst.rewrites.others
  held := ⟨v,hst.held,hheld⟩
  spaces := by
    have hn₀ : n.index < s₀.mark.nodes := Nat.lt_of_lt_of_le hn hg.mark.1
    have hm := Store.growsOff_mapNode s₁ n (·.count (.field form f shown))
    exact hst.spaces.move (hm.agree hn₀ (Mark.le_refl _)) hg.mark hm.mark (fun _ _ hxf => ⟨hxf,rfl⟩)
  admits := hadmits

variable (hc : s.nodes[n.index]? = some c)
include hc

omit hc in
/-- Only what is stored as text changes other fields or is not kept as it is. -/
theorem Slot.fits_plain (hfit : (Slot.field form f shown).fits c.kind = true) (hform : form ≠ .text) :
    c.kind.respaces f = false ∧ ∀ v, c.kind.keeps f v = v := by
  simp only [Slot.fits,Bool.and_eq_true,Bool.or_eq_true,Bool.not_eq_true',beq_iff_eq,hform,or_false] at hfit
  obtain ⟨⟨⟨⟨-,hspace⟩,hop⟩,-⟩,-⟩ := hfit
  exact ⟨hspace,fun v => Kind.keeps_eq (by rintro hk rfl; simp [hk] at hop) v⟩

omit hc in
theorem Slot.fits_view (hfit : (Slot.field form f shown).fits c.kind = true) (hform : form ≠ .children) : c.kind.viewForm f = none := by
  simp only [Slot.fits,Bool.and_eq_true,Bool.or_eq_true,Option.isNone_iff_eq_none,beq_iff_eq,hform,or_false] at hfit
  exact hfit.1.1.1.1

variable (hl : lookupLast f.word fields = some d)
include hl

theorem fillSlot_child_ok (hfit : (Slot.field .child f shown).fits c.kind = true)
    (h : fillSlot n (branches fields) (.field .child f shown) p s = .ok () t) :
    ∃ c', SlotRun p n fields c c' .child f shown d s t := by
  have hn := Store.lt_nodes_of_get hc
  have hview := Slot.fits_view hfit (by decide)
  obtain ⟨hspace,hk⟩ := Slot.fits_plain hfit (by decide)
  have hr := respacing_eq_nil hspace d
  simp only [fillSlot,lookupLast_branches,hl,Option.map_some,branchFor] at h
  by_cases hd : d.truth = true
  · rw [if_pos hd] at h
    obtain ⟨m,s₀,h₀,h⟩ := Edit.bind_ok.mp h
    have hg := (build_adds d _ _).grows h₀
    have hc₀ : s₀.nodes[n.index]? = some c := (hg.nodes _ hn).trans hc
    obtain ⟨_,s₁,h₁,h⟩ := Edit.bind_ok.mp h
    obtain ⟨c₁,hst⟩ := storeBuilt_plain hc₀ (prepareStore_plain hc₀ hspace) h₁ hview
    rw [hk,← hr] at hst
    have ht : t = s₁.mapNode n (·.count (.field .child f shown)) := Edit.updateNode_ok.mp h
    subst ht
    have hlast := hst.grows.trans (Store.growsOff_mapNode s₁ n (·.count (.field .child f shown)))
    refine ⟨_,hst.slotRun hn hl hg (fun h => by cases h) ?_⟩
    simp only [Holds,HoldsChild,if_pos hd]
    exact ⟨m,s₀.mark,hlast.mark,rfl,(Kept.of_run h₀).agree (hlast.agree hn (Mark.le_refl _))⟩
  · rw [if_neg hd] at h
    obtain ⟨_,s₁,h₁,h⟩ := Edit.bind_ok.mp h
    obtain ⟨c₁,hst⟩ := storeBuilt_plain hc (prepareStore_plain hc hspace) h₁ hview
    rw [hk,← hr] at hst
    have ht : t = s₁.mapNode n (·.count (.field .child f shown)) := Edit.updateNode_ok.mp h
    subst ht
    refine ⟨_,hst.slotRun hn hl (Store.Grows.refl s) (fun h => by cases h) ?_⟩
    simp only [Holds,HoldsChild,if_neg hd]

theorem fillSlot_list_ok (hb : c.building = true) (hform : form = .children ∨ form = .formatting)
    (hfit : (Slot.field form f shown).fits c.kind = true)
    (h : fillSlot n (branches fields) (.field form f shown) p s = .ok () t) :
    ∃ c', SlotRun p n fields c c' form f shown d s t := by
  have hn := Store.lt_nodes_of_get hc
  have htext : form.isText = false := by rcases hform with rfl | rfl <;> rfl
  obtain ⟨hspace,hk⟩ := Slot.fits_plain hfit (by rcases hform with rfl | rfl <;> decide)
  have hr := respacing_eq_nil hspace d
  have hrun : (do
      let inside ← buildItems d (.node n) (some (.field f))
      let l ← newNodeList inside (.node n) (some (.field f))
      storeBuilt n f (.list l)
      Edit.updateNode n (·.count (.field form f shown))) p s = .ok () t := by
    rcases hform with rfl | rfl
    all_goals
      simp only [fillSlot,lookupLast_branches,hl,Option.map_some,branchFor] at h
      exact h
  obtain ⟨ms,s₀,h₀,h⟩ := Edit.bind_ok.mp hrun
  obtain ⟨l,s₀',hlist,h⟩ := Edit.bind_ok.mp h
  cases hlist
  have hg := (buildItems_adds d _ _).grows h₀
  have hg' := hg.trans (Store.grows_addList s₀ ⟨.nodes,ms,.node n,some (.field f),[]⟩)
  have hc₀ := (hg'.nodes _ hn).trans hc
  obtain ⟨_,s₁,h₁,h⟩ := Edit.bind_ok.mp h
  cases h
  have hlast := Store.growsOff_mapNode s₁ n (·.count (.field form f shown))
  have hholds : ∀ {t : Store} {b : Mark} {v : Value}, HoldsList p t n c.kind f d s.mark b v →
      Holds p t n c.kind form f d s.mark b v := by
    rcases hform with rfl | rfl <;> exact fun h => h
  -- The list and its items lie between the first mark and the one after the list.
  have hkept : ∀ {t : Store}, (s₀.addList ⟨.nodes,ms,.node n,some (.field f),[]⟩).GrowsOff n t →
      s₀.mark ≤ t.mark ∧ Kept (buildItems d (.node n) (some (.field f))) p s.mark s₀.mark ms t ∧
      s₀.mark.lists < t.mark.lists ∧
      t.lists[s₀.mark.lists]? = some ⟨.nodes,ms,.node n,some (.field f),[]⟩ := by
    intro t ht
    have hle := (Store.grows_addList s₀ ⟨.nodes,ms,.node n,some (.field f),[]⟩)
    refine ⟨Mark.le_trans hle.mark ht.mark,?_,?_,?_⟩
    · exact (Kept.of_run h₀).agree ((hle.agree _).trans (ht.agree hn hle.mark))
    · exact Nat.lt_of_lt_of_le (by simp) ht.mark.2.1
    · rw [ht.lists _ (by simp),Store.addList_get]
      exact if_pos rfl
  cases hform' : c.kind.viewForm f with
  | none =>
    obtain ⟨c₁,hst⟩ := storeBuilt_plain hc₀ (prepareStore_plain hc₀ hspace) h₁ hform'
    rw [hk,← hr] at hst
    refine ⟨_,hst.slotRun hn hl hg' (fun h => absurd h (Bool.eq_false_iff.mp htext)) (hholds ?_)⟩
    obtain ⟨hle,hitems,hlt,hlist⟩ := hkept (hst.grows.trans hlast)
    refine ⟨ms,s₀.mark,hle,hitems,hlt,hlist,?_⟩
    rw [hform']
    rfl
  | some vf =>
    obtain ⟨c₁,s₂,shownItems,style,hst,hg₂,hviewed,hg₃,hsize,hcell⟩ :=
      storeBuilt_view hc₀ (prepareStore_plain hc₀ hspace) h₁ hb hform' (hk _)
    rw [← hr] at hst
    refine ⟨_,hst.slotRun hn hl hg' (fun h => absurd h (Bool.eq_false_iff.mp htext)) (hholds ?_)⟩
    obtain ⟨hle,hitems,hlt,hlist⟩ := hkept (hst.grows.trans hlast)
    refine ⟨ms,s₀.mark,hle,hitems,hlt,hlist,?_⟩
    rw [hform']
    refine ⟨s₂,⟨s₂.views.size⟩,shownItems,style,rfl,hg₂.mark.2.2,?_,?_,hviewed,?_⟩
    · simp [hsize]
    · exact hcell
    · exact (hg₃.trans hlast).agree hn ⟨hg₂.mark.1,by simpa using hg₂.mark.2.1,hg₂.mark.2.2⟩

theorem fillSlot_text_ok (hb : c.building = true) (hform : form = .text ∨ form = .flag)
    (hfit : (Slot.field form f shown).fits c.kind = true)
    (h : fillSlot n (branches fields) (.field form f shown) p s = .ok () t) :
    ∃ c', SlotRun p n fields c c' form f shown d s t := by
  have hn := Store.lt_nodes_of_get hc
  have hview := Slot.fits_view hfit (by rcases hform with rfl | rfl <;> decide)
  have hrun : (do
      storeBuilt n f (.ofDatum d)
      Edit.updateNode n (·.count (.field form f shown))) p s = .ok () t := by
    rcases hform with rfl | rfl
    all_goals
      simp only [fillSlot,lookupLast_branches,hl,Option.map_some,branchFor] at h
      exact h
  obtain ⟨_,s₁,h₁,h⟩ := Edit.bind_ok.mp hrun
  cases h
  obtain ⟨c₁,hst⟩ := storeBuilt_plain hc (prepareStore_datum hc hb d) h₁ hview
  refine ⟨_,hst.slotRun hn hl (Store.Grows.refl s) (fun _ => ?_) ?_⟩
  · obtain ⟨v',s',hp⟩ := storeBuilt_prepared hc h₁
    exact prepareStore_admits v' s' hp
  · rcases hform with rfl | rfl <;> rfl

omit hl in
theorem fillSlot_ok (hb : c.building = true) (hfit : (Slot.field form f shown).fits c.kind = true)
    (h : fillSlot n (branches fields) (.field form f shown) p s = .ok () t) :
    ∃ d c', SlotRun p n fields c c' form f shown d s t := by
  cases hl : lookupLast f.word fields with
  | none =>
    simp only [fillSlot,lookupLast_branches,hl] at h
    exact absurd h Edit.throw_ok
  | some d =>
    cases form with
    | text => exact ⟨d,fillSlot_text_ok hc hl hb (.inl rfl) hfit h⟩
    | flag => exact ⟨d,fillSlot_text_ok hc hl hb (.inr rfl) hfit h⟩
    | child => exact ⟨d,fillSlot_child_ok hc hl hfit h⟩
    | children => exact ⟨d,fillSlot_list_ok hc hl hb (.inl rfl) hfit h⟩
    | formatting => exact ⟨d,fillSlot_list_ok hc hl hb (.inr rfl) hfit h⟩

end Fill

end Slots

section Sections

theorem Holds.agree {v : Value} (h : Holds p s n k form f d a b v) (hst : s.Agree a b t) : Holds p t n k form f d a b v := by
  have hlist : HoldsList p s n k f d a b v → HoldsList p t n k f d a b v := by
    rintro ⟨ms,e,heb,hk,hlt,hl,hv⟩
    have hae := hk.le (buildItems_adds d _ _)
    refine ⟨ms,e,heb,hk.agree (hst.narrow (Mark.le_refl a) heb),hlt,(hst.lists _ hae.2.1 hlt).trans hl,?_⟩
    cases hform : k.viewForm f with
    | none =>
      rw [hform] at hv
      exact hv
    | some form =>
      rw [hform] at hv
      obtain ⟨u,w,shown,style,hw,hew,hwb,hview,hviewed,hu⟩ := hv
      refine ⟨u,w,shown,style,hw,hew,hwb,?_,hviewed,hu.trans (hst.narrow (Mark.le_refl a) ⟨heb.1,hlt,heb.2.2⟩)⟩
      exact (hst.views _ (Nat.le_trans hae.2.2 hew) hwb).trans hview
  cases form with
  | text => exact h
  | flag => exact h
  | children => exact hlist h
  | formatting => exact hlist h
  | child =>
    simp only [Holds,HoldsChild] at h ⊢
    split
    · next hd =>
      rw [if_pos hd] at h
      obtain ⟨m,e,heb,hv,hk⟩ := h
      exact ⟨m,e,heb,hv,hk.agree (hst.narrow (Mark.le_refl a) heb)⟩
    · next hd =>
      rw [if_neg hd] at h
      exact h

/-- The fields that slots fill. -/
def slotFields (slots : List Slot) : List Field :=
  slots.filterMap (fun | .field _ f _ => some f | .constant _ _ => none)

/-- The spacing that filling the slots sets under fields. -/
def spacingOf (k : Kind) (fields : List (String × Datum)) (slots : List Slot) : List (Field × Bool) :=
  (slotFields slots).flatMap (fun f => ((lookupLast f.word fields).map (respacing k f)).getD [])

/-- Slots of a node have been filled one after the other, each with cells of a range of its own. What a
slot held is there unless a later one set it anew, and then it is spacing. -/
inductive Sections (p : Parser) (t : Store) (n : NodeId) (k : Kind) (fields : List (String × Datum)) (c : NodeCell) :
    List Slot → Mark → Mark → Prop where
  | nil (a : Mark) : Sections p t n k fields c [] a a
  | constant {rest : List Slot} {a b : Mark} (text : String) (shown : Shown)
      (more : Sections p t n k fields c rest a b) : Sections p t n k fields c (.constant text shown :: rest) a b
  | field {rest : List Slot} {a e b : Mark} {form : Form} {f : Field} {d : Datum} (shown : Shown)
      (found : lookupLast f.word fields = some d) (le : a ≤ e)
      (held : f ∉ (spacingOf k fields rest).map Prod.fst →
        ∃ v, c.stored? (.field f) = some v ∧ Holds p t n k form f d a e v)
      (spaces : Spaced t n c (respacing k f d)
        (fun g => g ∉ slotFields rest ∧ g ∉ (spacingOf k fields rest).map Prod.fst) a e)
      (admits : form.isText = true → Admits p k f d)
      (more : Sections p t n k fields c rest e b) : Sections p t n k fields c (.field form f shown :: rest) a b

theorem Sections.le (h : Sections p t n k fields c slots a b) : a ≤ b := by
  induction h with
  | nil a => exact Mark.le_refl a
  | constant _ _ _ ih => exact ih
  | field _ _ hle _ _ _ _ ih => exact Mark.le_trans hle ih

theorem Sections.agree (h : Sections p s n k fields c slots a b) (hst : s.Agree a b t) :
    Sections p t n k fields c slots a b := by
  induction h with
  | nil a => exact .nil a
  | constant text shown _ ih => exact .constant text shown (ih hst)
  | @field rest a e b form f d shown found hle held spaces admits more ih =>
    have hown := hst.narrow (Mark.le_refl a) more.le
    refine .field shown found hle (fun hf => ?_) ?_ admits (ih (hst.narrow hle (Mark.le_refl b)))
    · obtain ⟨v,hv,hh⟩ := held hf
      exact ⟨v,hv,hh.agree hown⟩
    · exact spaces.move hown (Mark.le_refl a) (Mark.le_refl e) (fun _ _ hf => ⟨hf,rfl⟩)

theorem Sections.find (h : Sections p t n k fields c slots a b) (hslot : .field form f shown ∈ slots)
    (hf : f ∉ (spacingOf k fields slots).map Prod.fst) :
    ∃ d v x y, lookupLast f.word fields = some d ∧ c.stored? (.field f) = some v ∧ Holds p t n k form f d x y v := by
  induction h with
  | nil a => simp at hslot
  | constant text shown _ ih => exact ih (by simpa using hslot) hf
  | @field rest a e b form' g d shown' found hle held spaces admits more ih =>
    have hspacing : f ∉ (spacingOf k fields rest).map Prod.fst := by
      intro hr
      apply hf
      simp only [spacingOf,slotFields,List.filterMap_cons,List.flatMap_cons,List.map_append,List.mem_append]
      exact .inr hr
    rcases List.mem_cons.mp hslot with heq | hslot
    · cases heq
      obtain ⟨v,hv,hh⟩ := held hspacing
      exact ⟨d,v,a,e,found,hv,hh⟩
    · exact ih hslot hspacing

theorem Sections.congr {c' : NodeCell} (h : Sections p t n k fields c slots a b)
    (hc : ∀ f, c'.stored? (.field f) = c.stored? (.field f)) : Sections p t n k fields c' slots a b := by
  induction h with
  | nil a => exact .nil a
  | constant text shown _ ih => exact .constant text shown ih
  | field shown found hle held spaces admits _ ih =>
    refine .field shown found hle (fun hf => ?_) ?_ admits ih
    · rw [hc]
      exact held hf
    · exact spaces.move (Store.Agree.refl _ _ _) (Mark.le_refl _) (Mark.le_refl _) (fun x _ hf => ⟨hf,hc x.1⟩)

theorem Sections.suffix {before : List Slot} (h : Sections p t n k fields c (before ++ slots) a b) :
    ∃ e, Sections p t n k fields c slots e b := by
  induction before generalizing a with
  | nil => exact ⟨a,h⟩
  | cons slot before ih =>
    cases h with
    | constant _ _ more => exact ih more
    | field _ _ _ _ _ _ more => exact ih more

theorem slotFields_mem (h : .field form f shown ∈ slots) : f ∈ slotFields slots := List.mem_filterMap.mpr ⟨_,h,rfl⟩

theorem mem_slotFields (h : f ∈ slotFields slots) : ∃ form shown, .field form f shown ∈ slots := by
  simp only [slotFields,List.mem_filterMap] at h
  obtain ⟨slot,hslot,heq⟩ := h
  cases slot with
  | constant text shown => cases heq
  | field form g shown =>
    cases heq
    exact ⟨form,shown,hslot⟩

theorem mem_spacingOf (h : x ∈ spacingOf k fields slots) :
    ∃ g ∈ slotFields slots, ∃ d, lookupLast g.word fields = some d ∧ x ∈ respacing k g d := by
  simp only [spacingOf,List.mem_flatMap] at h
  obtain ⟨g,hg,hx⟩ := h
  cases hd : lookupLast g.word fields with
  | none => simp [hd] at hx
  | some d =>
    rw [hd] at hx
    exact ⟨g,hg,d,hd,hx⟩

theorem respaces_of_mem (h : x ∈ respacing k f d) : k.respaces f = true := by
  by_contra hr
  rw [respacing_eq_nil (by simpa using hr)] at h
  cases h

theorem respacing_fields (hx : x ∈ respacing k f d) : x.1 ∈ [Field.firstFormatting,.secondFormatting,.thirdFormatting] := by
  have hmap : (respacing k f d).map Prod.fst ⊆ [Field.firstFormatting,.secondFormatting,.thirdFormatting] := by
    unfold respacing
    split
    · split <;> decide
    · split <;> decide
    · split
      · decide
      · split <;> decide
    · decide
  exact hmap (List.mem_map_of_mem hx)

theorem spacingOf_fields (hf : f ∈ (spacingOf k fields slots).map Prod.fst) :
    f ∈ [Field.firstFormatting,.secondFormatting,.thirdFormatting] := by
  obtain ⟨x,hx,rfl⟩ := List.mem_map.mp hf
  obtain ⟨g,-,d,-,hx⟩ := mem_spacingOf hx
  exact respacing_fields hx

theorem respacing_ne (hx : x ∈ respacing k f d) : x.1 ≠ f := by
  intro hf
  have hx' := respacing_fields hx
  unfold respacing at hx
  split at hx <;> rw [hf] at hx' <;> simp at hx hx'

theorem spacingOf_slots (hf : f ∈ (spacingOf k fields k.layout).map Prod.fst) : f ∈ slotFields k.layout := by
  obtain ⟨x,hx,rfl⟩ := List.mem_map.mp hf
  obtain ⟨g,-,d,-,hx⟩ := mem_spacingOf hx
  have hmap : (respacing k g d).map Prod.fst ⊆ slotFields k.layout := by
    unfold respacing
    split
    · split <;> decide
    · split <;> decide
    · split
      · decide
      · split <;> decide
    · exact List.nil_subset _
  exact hmap (List.mem_map_of_mem hx)

/-- Slots of a node that is being built have been filled. -/
structure Filled (p : Parser) (n : NodeId) (fields : List (String × Datum)) (c c' : NodeCell) (slots : List Slot)
    (s t : Store) : Prop where
  grows : s.GrowsOff n t
  cell : t.nodes[n.index]? = some c'
  kind : c'.kind = c.kind
  parent : c'.parent = c.parent
  place : c'.place = c.place
  building : c'.building = c.building
  origin : c'.origin = c.origin
  texts : c'.texts = slots.foldl (fun fs slot => slot.add Form.isText fs) c.texts
  lists : c'.lists = slots.foldl (fun fs slot => slot.add Form.isList fs) c.lists
  children : c'.children = slots.foldl (fun fs slot => slot.add Form.isChild fs) c.children
  stored : ∀ g, g ∉ slotFields slots → g ∉ (spacingOf c.kind fields slots).map Prod.fst →
    c'.stored? (.field g) = c.stored? (.field g)
  others : ∀ word, c'.stored? (.other word) = c.stored? (.other word)
  sections : Sections p t n c.kind fields c' slots s.mark t.mark

theorem fillSlots_ok : ∀ {c : NodeCell} {s t : Store}, s.nodes[n.index]? = some c → c.building = true →
      (∀ slot ∈ slots, slot.fits c.kind = true) → (slotFields slots).Nodup →
      fillSlots n (branches fields) slots p s = .ok () t → ∃ c', Filled p n fields c c' slots s t := by
  induction slots with
  | nil =>
    intro c s t hc hb hfit hnd h
    obtain ⟨-,rfl⟩ := Edit.pure_ok.mp h
    exact ⟨c,Store.GrowsOff.refl n s,hc,rfl,rfl,rfl,rfl,rfl,rfl,rfl,rfl,fun _ _ _ => rfl,fun _ => rfl,.nil _⟩
  | cons slot rest ih =>
    intro c s t hc hb hfit hnd h
    have hn := Store.lt_nodes_of_get hc
    obtain ⟨_,s₁,h₁,h₂⟩ := Edit.bind_ok.mp h
    have hrest : ∀ slot ∈ rest, slot.fits c.kind = true := fun x hx => hfit x (List.mem_cons_of_mem _ hx)
    cases slot with
    | constant text shown =>
      obtain ⟨-,rfl⟩ := Edit.pure_ok.mp h₁
      obtain ⟨c',hf⟩ := ih hc hb hrest hnd h₂
      exact ⟨c',hf.grows,hf.cell,hf.kind,hf.parent,hf.place,hf.building,hf.origin,hf.texts,hf.lists,hf.children,hf.stored,
        hf.others,.constant text shown hf.sections⟩
    | field form f shown =>
      obtain ⟨d,c₁,hr⟩ := fillSlot_ok hc hb (hfit _ List.mem_cons_self) h₁
      obtain ⟨hf,hnd⟩ := List.nodup_cons.mp hnd
      obtain ⟨c',hf'⟩ := ih hr.cell (hr.building.trans hb) (by rw [hr.kind]; exact hrest) hnd h₂
      have hsections := hf'.sections
      have hstored := hf'.stored
      rw [hr.kind] at hsections hstored
      have hspacing : spacingOf c.kind fields (.field form f shown :: rest) =
          respacing c.kind f d ++ spacingOf c.kind fields rest := by
        simp [spacingOf,slotFields,hr.found]
      have hown : Store.Agree s.mark s₁.mark s₁ t := hf'.grows.agree hn (Mark.le_refl _)
      refine ⟨c',hr.grows.trans hf'.grows,hf'.cell,hf'.kind.trans hr.kind,hf'.parent.trans hr.parent,
        hf'.place.trans hr.place,hf'.building.trans hr.building,hf'.origin.trans hr.origin,?_,?_,?_,?_,
        fun word => (hf'.others word).trans (hr.others word),?_⟩
      · rw [hf'.texts,hr.texts]
        rfl
      · rw [hf'.lists,hr.lists]
        rfl
      · rw [hf'.children,hr.children]
        rfl
      · intro g hg hgs
        have hg' : g ≠ f ∧ g ∉ slotFields rest := by simpa [slotFields,not_or] using hg
        rw [hspacing,List.map_append,List.mem_append,not_or] at hgs
        rw [hstored g hg'.2 hgs.2,hr.stored g hg'.1 hgs.1]
      · refine .field shown hr.found hr.grows.mark (fun hfs => ?_) ?_ hr.admits hsections
        · obtain ⟨v,hv,hh⟩ := hr.held
          exact ⟨v,(hstored f hf hfs).trans hv,hh.agree hown⟩
        · exact hr.spaces.move hown (Mark.le_refl _) (Mark.le_refl _)
            (fun x hx hfree => ⟨respacing_ne hx,hstored x.1 hfree.1 hfree.2⟩)

end Sections

section Records

theorem Kind.word_of_ofWord {word : String} (h : Kind.ofWord? word = some k) : k.word = word := by
  have hk := List.find?_some h
  simpa using hk

theorem layout_nodup (k : Kind) : (slotFields k.layout).Nodup := by
  cases k <;> decide

/-- A node whose fields were all filled from a record, with cells between two marks. -/
structure Planted (p : Parser) (t : Store) (a b : Mark) (n : NodeId) (parent : Value) (place : Option Attr)
    (fields : List (String × Datum)) (k : Kind) (c : NodeCell) : Prop where
  named : lookupLast "type" fields = some (.text k.word)
  known : Kind.ofWord? k.word = some k
  cell : t.nodes[n.index]? = some c
  kind : c.kind = k
  parent : c.parent = parent
  place : c.place = place
  building : c.building = false
  type : c.stored? (.field .type) = some (.text k.word)
  texts : c.texts = k.layout.foldl (fun fs slot => slot.add Form.isText fs) [.type]
  lists : c.lists = k.layout.foldl (fun fs slot => slot.add Form.isList fs) []
  children : c.children = k.layout.foldl (fun fs slot => slot.add Form.isChild fs) []
  le : a ≤ b
  sections : k ≠ .int → Sections p t n k fields c k.layout a b
  number : k = .int → ∃ d i, lookupLast "value" fields = some d ∧ literalInteger (.ofDatum d) = .ok i ∧
    c.stored? (.field .value) = some (.int i)

/-- A node that was made for a record: its own cell comes first, it took over no class, and it stores nothing else. -/
structure Grown (p : Parser) (t : Store) (a b : Mark) (n : NodeId) (parent : Value) (place : Option Attr)
    (fields : List (String × Datum)) (k : Kind) (c : NodeCell) : Prop
    extends Planted p t ⟨a.nodes + 1,a.lists,a.views⟩ b n parent place fields k c where
  first : n.index = a.nodes
  origin : c.origin = none
  own : ∀ attr v, c.stored? attr = some v → attr = .field .type ∨ ∃ f ∈ slotFields k.layout, attr = .field f

theorem Grown.agree (h : Grown p s a b n parent place fields k c) (hst : s.Agree a b t) :
    Grown p t a b n parent place fields k c where
  named := h.named
  known := h.known
  first := h.first
  cell := (hst.nodes _ (Nat.le_of_eq h.first.symm) (by rw [h.first]; exact h.le.1)).trans h.cell
  kind := h.kind
  parent := h.parent
  place := h.place
  building := h.building
  type := h.type
  texts := h.texts
  lists := h.lists
  children := h.children
  origin := h.origin
  own := h.own
  le := h.le
  sections hk := (h.sections hk).agree (hst.narrow ⟨Nat.le_succ _,Nat.le_refl _,Nat.le_refl _⟩ (Mark.le_refl b))
  number := h.number

/-- A node right before its slots are filled, whatever it held before. -/
def NodeCell.start (c : NodeCell) (parent : Value) (place : Option Attr) : NodeCell :=
  { c with building := true, parent := parent, place := place, texts := [.type], lists := [], children := [] }.put
    (.field .type) (.text c.kind.word)

theorem NodeCell.start_layout (c : NodeCell) (parent : Value) (place : Option Attr) :
    (c.start parent place).layout = .ok c.kind.layout := by
  have htype : (c.start parent place).stored? (.field .type) = some (.text c.kind.word) := NodeCell.stored_put_self _ _ _
  unfold NodeCell.layout NodeCell.typeValue
  rw [htype]
  exact if_pos (beq_self_eq_true _)

section Fill
variable {p : Parser} {n : NodeId} {fields : List (String × Datum)} {parent : Value} {place : Option Attr}
  {c₀ c : NodeCell} {s t : Store}

theorem Filled.type (h : Filled p n fields (c₀.start parent place) c c₀.kind.layout s t)
    (htype : lookupLast "type" fields = some (.text c₀.kind.word)) : c.stored? (.field .type) = some (.text c₀.kind.word) := by
  have hspacing : Field.type ∉ (spacingOf c₀.kind fields c₀.kind.layout).map Prod.fst := by
    intro hf
    have hf' := spacingOf_fields hf
    simp at hf'
  by_cases hslot : Field.type ∈ slotFields c₀.kind.layout
  · simp only [slotFields,List.mem_filterMap] at hslot
    obtain ⟨slot,hslot,heq⟩ := hslot
    cases slot with
    | constant text shown => cases heq
    | field form f shown =>
      cases heq
      obtain ⟨d,v,x,y,hd,hv,hh⟩ := h.sections.find hslot hspacing
      have hfit := layout_fits c₀.kind _ hslot
      simp only [Slot.fits,Bool.and_eq_true] at hfit
      have hform : form = .text := by simpa using hfit.1.2
      subst hform
      have hword : lookupLast Field.type.word fields = some (.text c₀.kind.word) := htype
      rw [hword] at hd
      cases hd
      have hkeep : c₀.kind.keeps .type (.text c₀.kind.word) = .text c₀.kind.word := Kind.keeps_eq (fun _ h => by cases h) _
      rw [hv,hh]
      exact congrArg some hkeep
  · rw [h.stored _ hslot hspacing]
    exact NodeCell.stored_put_self _ _ _

theorem Filled.value (h : Filled p n fields (c₀.start parent place) c c₀.kind.layout s t) (hint : c₀.kind = .int) :
    ∃ d, lookupLast "value" fields = some d ∧ c.stored? (.field .value) = some (.ofDatum d) := by
  have hspacing : Field.value ∉ (spacingOf c₀.kind fields c₀.kind.layout).map Prod.fst := by
    intro hf
    have hf' := spacingOf_fields hf
    simp at hf'
  have hslot : .field .text .value .always ∈ c₀.kind.layout := by
    rw [hint]
    exact List.mem_cons_self
  obtain ⟨d,v,_,_,hd,hv,hh⟩ := h.sections.find hslot hspacing
  have hheld : v = .ofDatum d := hh.trans (Kind.keeps_eq (fun h => by cases hint.symm.trans h) _)
  exact ⟨d,hd,hheld ▸ hv⟩

theorem Filled.others_kept (h : Filled p n fields (c₀.start parent place) c c₀.kind.layout s t) {attr : Attr}
    (htype : attr ≠ .field .type) (hslot : ∀ f ∈ slotFields c₀.kind.layout, attr ≠ .field f) :
    c.stored? attr = c₀.stored? attr := by
  have hstart : (c₀.start parent place).stored? attr = c₀.stored? attr := NodeCell.stored_put_of_ne htype
  cases attr with
  | other word => exact (h.others word).trans hstart
  | field f =>
    have hf : f ∉ slotFields c₀.kind.layout := fun hf => hslot f hf rfl
    exact (h.stored f hf (fun hspaced => hf (spacingOf_slots hspaced))).trans hstart

/-- Filling a node that is there, whatever it held before. -/
theorem fill_planted (hc : s.nodes[n.index]? = some c₀) (htype : lookupLast "type" fields = some (.text c₀.kind.word))
    (hknown : Kind.ofWord? c₀.kind.word = some c₀.kind) (h : fill n parent place (branches fields) p s = .ok () t) :
    ∃ c, Planted p t s.mark t.mark n parent place fields c₀.kind c ∧ s.GrowsOff n t ∧ c.origin = c₀.origin ∧
      ∀ attr, attr ≠ .field .type → (∀ f ∈ slotFields c₀.kind.layout, attr ≠ .field f) → c.stored? attr = c₀.stored? attr := by
  have hn := Store.lt_nodes_of_get hc
  unfold fill at h
  obtain ⟨_,s₁,h₁,h⟩ := Edit.bind_ok.mp h
  have hs₁ := Edit.updateNode_ok.mp h₁
  rw [lookupLast_branches,htype] at h
  simp only [Option.map_some,branchFor] at h
  obtain ⟨_,s₂,h₁,h⟩ := Edit.bind_ok.mp h
  have hs₂ := Edit.updateNode_ok.mp h₁
  have hc₂ : s₂.nodes[n.index]? = some (c₀.start parent place) := by
    simp only [hs₂,hs₁,Store.mapNode_get,if_pos,hc]
    rfl
  have hg₂ : s.GrowsOff n s₂ := by
    rw [hs₂,hs₁]
    exact (Store.growsOff_mapNode s n _).trans (Store.growsOff_mapNode _ n _)
  have hm₂ : s₂.mark = s.mark := by
    rw [hs₂,hs₁]
    simp [Store.mark]
  replace h := (Edit.node_known hc₂).symm.trans h
  obtain ⟨layout,_,h₁,h⟩ := Edit.bind_ok.mp h
  rw [NodeCell.start_layout] at h₁
  obtain ⟨hlayout,rfl⟩ := Edit.lift_ok.mp h₁
  cases hlayout
  obtain ⟨_,s₃,h₁,h⟩ := Edit.bind_ok.mp h
  obtain ⟨c,hf⟩ := fillSlots_ok hc₂ rfl (layout_fits c₀.kind) (layout_nodup c₀.kind) h₁
  have hsections := hf.sections
  rw [hm₂] at hsections
  obtain ⟨_,s₄,h₁,h⟩ := Edit.bind_ok.mp h
  have hs₄ := Edit.updateNode_ok.mp h₁
  have hc₄ : s₄.nodes[n.index]? = some { c with building := false } := by
    rw [hs₄,Store.mapNode_get,if_pos rfl,hf.cell]
    rfl
  have hm₄ : s₄.mark = s₃.mark := by
    rw [hs₄]
    simp [Store.mark]
  have hg₄ : s₃.GrowsOff n s₄ := hs₄ ▸ Store.growsOff_mapNode s₃ n _
  have hgrows : s.GrowsOff n s₄ := (hg₂.trans hf.grows).trans hg₄
  replace h := (Edit.node_known hc₄).symm.trans h
  have hkind : c.kind = c₀.kind := hf.kind
  dsimp only at h
  rw [hkind] at h
  by_cases hint : c₀.kind = .int
  · rw [if_pos (by rw [hint]; rfl)] at h
    obtain ⟨d,hd,hv⟩ := hf.value hint
    obtain ⟨_,hr,h⟩ := Edit.ask_ok.mp h
    have hv₄ : ({ c with building := false } : NodeCell).stored? (.field .value) = some (.ofDatum d) := hv
    rw [look_stored hc₄ hv₄] at hr
    cases hr
    obtain ⟨i,_,h₁,h⟩ := Edit.bind_ok.mp h
    obtain ⟨hi,rfl⟩ := Edit.lift_ok.mp h₁
    have ht := Edit.updateNode_ok.mp h
    have hmt : t.mark = s₃.mark := by
      rw [← hm₄,ht]
      simp [Store.mark]
    have hgt : s₄.GrowsOff n t := ht ▸ Store.growsOff_mapNode s₄ n _
    refine ⟨{ c with building := false }.put (.field .value) (.int i),⟨htype,hknown,?_,hf.kind,hf.parent,hf.place,rfl,?_,
      hf.texts,hf.lists,hf.children,hmt ▸ hsections.le,fun h => absurd hint h,fun _ => ⟨d,i,hd,hi,?_⟩⟩,hgrows.trans hgt,hf.origin,?_⟩
    · rw [ht,Store.mapNode_get,if_pos rfl,hc₄]
      rfl
    · rw [NodeCell.stored_put_of_ne (by decide)]
      exact hf.type htype
    · exact NodeCell.stored_put_self _ _ _
    · intro attr htype hslots
      have hvalue : attr ≠ .field .value := hslots .value (by rw [hint]; exact List.mem_cons_self)
      rw [NodeCell.stored_put_of_ne hvalue]
      exact hf.others_kept htype hslots
  · rw [if_neg (by simpa using hint)] at h
    obtain ⟨-,rfl⟩ := Edit.pure_ok.mp h
    refine ⟨{ c with building := false },⟨htype,hknown,hc₄,hf.kind,hf.parent,hf.place,rfl,hf.type htype,hf.texts,hf.lists,
      hf.children,hm₄ ▸ hsections.le,fun _ => ?_,fun h => absurd h hint⟩,hgrows,hf.origin,fun _ => hf.others_kept⟩
    have hagree : Store.Agree s.mark s₃.mark s₃ s₄ := hg₄.agree hn (Mark.le_refl _)
    exact hm₄ ▸ (hsections.agree hagree).congr (fun _ => rfl)

theorem fill_ok (hn : n.index = a.nodes) (hs : s.mark = ⟨a.nodes + 1,a.lists,a.views⟩)
    (hc : s.nodes[n.index]? = some ⟨k,parent,place,true,[],[],[],[],none⟩)
    (htype : lookupLast "type" fields = some (.text k.word)) (hknown : Kind.ofWord? k.word = some k)
    (h : fill n parent place (branches fields) p s = .ok () t) : ∃ c, Grown p t a t.mark n parent place fields k c := by
  obtain ⟨c,hplanted,-,horigin,hothers⟩ := fill_planted hc htype hknown h
  rw [hs] at hplanted
  refine ⟨c,hplanted,hn,horigin,fun attr v hv => ?_⟩
  by_contra hno
  rw [not_or,not_exists] at hno
  have hnone := hothers attr hno.1 (fun f hf heq => hno.2 f ⟨hf,heq⟩)
  rw [hv] at hnone
  cases hnone

end Fill

theorem buildRecord_ok (h : buildRecord (branches fields) parent place p u = .ok n v) :
    ∃ k c, Grown p v u.mark v.mark n parent place fields k c := by
  unfold buildRecord at h
  rw [lookupLast_branches] at h
  cases htype : lookupLast "type" fields with
  | none =>
    rw [htype] at h
    exact absurd h Edit.throw_ok
  | some d =>
  rw [htype] at h
  simp only [Option.map_some,branchFor] at h
  cases d with
  | text word =>
    dsimp only at h
    cases hk : Kind.ofWord? word with
    | none =>
      rw [hk] at h
      exact absurd h Edit.throw_ok
    | some k =>
      rw [hk] at h
      cases Kind.word_of_ofWord hk
      obtain ⟨m,s₀,h₁,h⟩ := Edit.bind_ok.mp h
      obtain ⟨rfl,rfl⟩ := Edit.newNode_ok.mp h₁
      obtain ⟨_,t,hfill,h⟩ := Edit.bind_ok.mp h
      obtain ⟨rfl,rfl⟩ := Edit.pure_ok.mp h
      refine ⟨k,fill_ok rfl ?_ ?_ htype hk hfill⟩
      · simp [Store.mark]
      · rw [Store.addNode_get,if_pos rfl]
  | _ => exact absurd h Edit.throw_ok

/-- A node that was built and left alone comes from a record, and looks like it. -/
theorem Kept.grown (h : Kept (build d parent place) p a b n t) :
    ∃ fields k c, d = .record fields ∧ Grown p t a b n parent place fields k c := by
  obtain ⟨u,v,rfl,rfl,hrun,hagree⟩ := h
  cases d with
  | record fields =>
    simp only [build] at hrun
    obtain ⟨k,c,hg⟩ := buildRecord_ok hrun
    exact ⟨fields,k,c,rfl,hg.agree hagree⟩
  | _ => exact absurd hrun Edit.throw_ok

theorem Kept.not_built (h : Kept (build d parent place) p a b n t) (hd : ∀ fields, d ≠ .record fields) : False := by
  obtain ⟨fields,_,_,heq,-⟩ := h.grown
  exact hd fields heq

/-- Only records are built, so a property of what is built passes from the fields of a record to the record. -/
theorem Datum.induct_built {P : Datum → Prop} (other : ∀ d, (∀ fields, d ≠ .record fields) → P d)
    (record : ∀ fields, (∀ {word d}, lookupLast word fields = some d → P d ∧ ∀ ds, d = .list ds → ∀ e ∈ ds, P e) →
      P (.record fields)) (d : Datum) : P d := by
  have hboth : P d ∧ ∀ ds, d = .list ds → ∀ e ∈ ds, P e := by
    induction d using Datum.induct with
    | list ds ih =>
      refine ⟨other _ (by simp),fun es hes e he => ?_⟩
      cases hes
      exact (ih e he).1
    | record fields ih => exact ⟨record fields (fun hd => ih _ (lookupLast_mem hd)),fun es hes => by cases hes⟩
    | _ => exact ⟨other _ (by simp),fun es hes => by cases hes⟩
  exact hboth.1

theorem Kept.nil (h : Kept (buildEach [] parent place) p a b ms t) : ms = [] := by
  obtain ⟨u,v,rfl,rfl,hrun,-⟩ := h
  simp only [buildEach,Edit.pure_ok] at hrun
  exact hrun.1.symm

theorem Kept.cons {ds : List Datum} (h : Kept (buildEach (d :: ds) parent place) p a b ms t) :
    ∃ n rest e, ms = .node n :: rest ∧ Kept (build d parent place) p a e n t ∧
      Kept (buildEach ds parent place) p e b rest t ∧ a ≤ e ∧ e ≤ b := by
  obtain ⟨u,v,rfl,rfl,hrun,hagree⟩ := h
  simp only [buildEach,Edit.bind_ok,Edit.pure_ok] at hrun
  obtain ⟨n,s,hs,rest,_,hv,rfl,rfl⟩ := hrun
  have hg := (build_adds d parent place).grows hs
  have hg' := (buildEach_adds (fun d _ => build_adds d) parent place).grows hv
  refine ⟨n,rest,s.mark,rfl,⟨u,s,rfl,rfl,hs,?_⟩,⟨s,_,rfl,rfl,hv,?_⟩,hg.mark,hg'.mark⟩
  · exact (hg'.agree _).trans (hagree.narrow (Mark.le_refl _) hg'.mark)
  · exact hagree.narrow hg.mark (Mark.le_refl _)

/-- The items that a field can be filled from: nothing, or a list of records. -/
theorem Kept.items (h : Kept (buildItems d parent place) p a b ms t) :
    ∃ ds, Kept (buildEach ds parent place) p a b ms t ∧ (d = .list ds ∨ ds = [] ∧ (d = .text "" ∨ d = .record [])) := by
  obtain ⟨u,v,rfl,rfl,hrun,hagree⟩ := h
  cases d with
  | list ds => exact ⟨ds,⟨u,v,rfl,rfl,hrun,hagree⟩,.inl rfl⟩
  | text x =>
    simp only [buildItems] at hrun
    split at hrun
    · next hx =>
      exact ⟨[],⟨u,v,rfl,rfl,hrun,hagree⟩,.inr ⟨rfl,.inl (by simpa using hx)⟩⟩
    · exact absurd hrun Edit.throw_ok
  | record fs =>
    simp only [buildItems] at hrun
    split at hrun
    · next hx =>
      exact ⟨[],⟨u,v,rfl,rfl,hrun,hagree⟩,.inr ⟨rfl,.inr (by simpa using hx)⟩⟩
    · exact absurd hrun Edit.throw_ok
  | _ => exact absurd hrun Edit.throw_ok

/-- The list that is built from data, and the rows of its items. -/
theorem buildList_kept (h : buildList d parent place p s = .ok l t) : s.lists.size ≤ l.index ∧
    ∃ ms ds b, t.lists[l.index]? = some ⟨.nodes,ms,parent,place,[]⟩ ∧ Kept (buildEach ds parent place) p s.mark b ms t ∧
      b.nodes = t.nodes.size ∧ (d = .list ds ∨ ds = [] ∧ (d = .text "" ∨ d = .record [])) := by
  obtain ⟨ms,u,hitems,hlist⟩ := Edit.bind_ok.mp h
  obtain ⟨rfl,rfl⟩ := Edit.newList_ok.mp hlist
  have hkept := (Kept.of_run hitems).agree ((Store.grows_addList u ⟨.nodes,ms,parent,place,[]⟩).agree _)
  obtain ⟨ds,hrow,hds⟩ := hkept.items
  exact ⟨((buildItems_adds d _ _).grows hitems).mark.2.1,ms,ds,u.mark,by rw [Store.addList_get,if_pos rfl],hrow,rfl,hds⟩

end Records

end CodeTree
