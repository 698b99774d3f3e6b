import CodeTree.Proofs.Lossless
import CodeTree.Proofs.Numerals
import CodeTree.Proofs.Reading

/-! # Building again

What building a node needs is told by its record: every field of the layout is there, texts pass their checks, and
children and items can be built themselves. So building does not depend on the store, nor on what holds the node. The
data that a built node is written back as can be built again, and the new node is written back as the same data.
-/
namespace CodeTree
variable {d : Datum} {ds : List Datum} {slots : List Slot} {vs : List Value} {a b : Mark} {fuel : Nat} {place : Option Attr}
  {parent : Value}

section Views
variable {α β : Type} {t : Store} {n : NodeId} {i : Nat} {l : ListId} {lc : ListCell} {ms : List NodeId} {word : String}

theorem Read.Returns.mapM {f : α → Read β} {xs : List α} (h : ∀ x ∈ xs, (f x).Returns t (fun _ => True)) :
    (xs.mapM f).Returns t (fun _ => True) := by
  induction xs with
  | nil => exact .pure trivial
  | cons x xs ih =>
    rw [List.mapM_cons]
    refine (h x List.mem_cons_self).bind (fun a _ => ?_)
    exact (ih (List.forall_mem_cons.mp h).2).bind (fun _ _ => .pure trivial)

theorem gather_returns {Q : β → Prop} {f : α → Read (List β)} {xs : List α}
    (h : ∀ x ∈ xs, (f x).Returns t (fun ys => ∀ y ∈ ys, Q y)) : (gather f xs).Returns t (fun ys => ∀ y ∈ ys, Q y) := by
  induction xs with
  | nil => exact .pure (by simp)
  | cons x xs ih =>
    refine (h x List.mem_cons_self).bind (fun first hfirst => ?_)
    refine (ih (List.forall_mem_cons.mp h).2).bind (fun others hothers => .pure (fun y hy => ?_))
    exact (List.mem_append.mp hy).elim (hfirst y) (hothers y)

/-- What a search for all nodes makes of one slot of a node. -/
def gatherSlot (word : String) (fuel : Nat) (n : NodeId) : Slot → Read (List Value)
  | .field .child f _ => do
    let child ← look n (.field f)
    match child with
    | .node _ => if ← truthWith look child then findAllIn look (hasWord word) fuel true child else pure []
    | _ => pure []
  | .field .children f _ | .field .formatting f _ => do
    let held ← look n (.field f)
    let members ← membersWith look held
    gather (findAllIn look (hasWord word) fuel true) members
  | _ => pure []

theorem gatherIn_node : findAllIn look (hasWord word) (fuel + 1) true (.node n) = (do
    let here := if ← hasWord word n then [.node n] else []
    let c ← Read.node n
    let layout ← Read.lift c.layout
    let below ← gather (gatherSlot word fuel n) layout
    return here ++ below : Read (List Value)) := rfl

/-- Searching a tree for all nodes with a word comes to nodes of the tree. -/
theorem Store.Tree.gathered (h : t.Tree i n) (hdepth : i ≤ t.depth) (hfuel : i ≤ fuel) (hword : plainlySought word = true) :
    (findAllIn look (hasWord word) fuel true (.node n)).Returns t
      (fun xs => ∀ x ∈ xs, ∃ m, x = .node m ∧ t.Tree i m) := by
  induction i generalizing n fuel with
  | zero => exact h.elim
  | succ i ih =>
    obtain ⟨c,hc⟩ := id h
    obtain _ | fuel := fuel
    · omega
    have hbelow : ∀ m, t.Tree i m → (findAllIn look (hasWord word) fuel true (.node m)).Returns t
        (fun xs => ∀ x ∈ xs, ∃ m, x = .node m ∧ t.Tree i m) := fun m hm => ih hm (by omega) (by omega)
    have hrow : ∀ {ms : List NodeId}, (∀ m ∈ ms, t.Tree i m) →
        (gather (findAllIn look (hasWord word) fuel true) (ms.map .node)).Returns t
          (fun xs => ∀ x ∈ xs, ∃ m, x = .node m ∧ t.Tree i m) := by
      intro ms hms
      refine gather_returns (fun x hx => ?_)
      obtain ⟨m,hm,rfl⟩ := List.mem_map.mp hx
      exact hbelow m (hms m hm)
    have hnothing : (pure [] : Read (List Value)).Returns t (fun xs => ∀ x ∈ xs, ∃ m, x = .node m ∧ t.Tree i m) :=
      .pure (by simp)
    have hslots : ∀ slot ∈ c.kind.layout, (gatherSlot word fuel n slot).Returns t
        (fun xs => ∀ x ∈ xs, ∃ m, x = .node m ∧ t.Tree i m) := by
      intro slot hslot
      cases slot with
      | constant text shown => exact hnothing
      | field form f shown =>
        cases form with
        | text | flag => exact hnothing
        | child =>
          obtain ⟨v,hlook,-,rfl | ⟨m,rfl,below⟩⟩ := hc.single hslot
          · exact .known hlook hnothing
          · refine .known hlook (.known (below.truth (by omega)) ?_)
            split
            · exact hbelow m below
            · exact hnothing
        | children | formatting =>
          obtain ⟨v,_,ms,hlook,hmembers,-,hms⟩ := hc.listed hslot rfl
          exact .known hlook (.known hmembers (hrow hms.each))
    rw [gatherIn_node]
    refine (hc.hasWord hword).bind (fun b _ => ?_)
    refine .known (Read.node_ok.mpr hc.cell) (.known (Read.lift_ok.mpr hc.layout) ?_)
    refine (gather_returns hslots).bind (fun below hbelow => .pure (fun x hx => ?_))
    rcases List.mem_append.mp hx with hx | hx
    · split at hx
      · exact ⟨n,List.mem_singleton.mp hx,h⟩
      · exact absurd hx List.not_mem_nil
    · obtain ⟨m,rfl,hm⟩ := hbelow x hx
      exact ⟨m,rfl,hm.mono (Nat.le_succ i)⟩

section Rows
variable (hl : t.lists[l.index]? = some lc) (hflavour : lc.flavour = .nodes) (hitems : lc.items = ms.map .node)
  (hms : ∀ m ∈ ms, t.Tree i m)
include hl hflavour hitems hms

theorem significant_returns : (significant (.list l)).Returns t (fun _ => True) := by
  have hcells : ∀ x ∈ lc.items, ∃ m c, x = .node m ∧ t.nodes[m.index]? = some c := by
    intro x hx
    obtain ⟨m,hm,rfl⟩ := List.mem_map.mp (hitems ▸ hx)
    obtain ⟨j,rfl⟩ := (hms m hm).succ
    obtain ⟨c,hc⟩ := hms m hm
    exact ⟨m,c,rfl,hc.cell⟩
  refine .known (a := .list l) rfl (.known (Read.list_ok.mpr hl) ?_)
  rw [if_pos (by rw [hflavour]; rfl)]
  exact (withoutSeparators_returns hcells).imp (fun _ _ => trivial)

theorem isIndented_returns (hdepth : i + 1 < t.depth) : (isIndented (.list l)).Returns t (fun _ => True) := by
  obtain ⟨D,hD⟩ : ∃ D, t.depth = D + 2 := ⟨t.depth - 2,by omega⟩
  have hcommas : (allWith "comma" false (.list l)).Returns t (fun xs => ∀ x ∈ xs, ∃ m, x = .node m ∧ t.Tree i m) := by
    refine .known (a := t.depth) rfl ?_
    rw [hD]
    refine .known (Read.list_ok.mpr hl) ?_
    rw [if_pos (by rw [hflavour]; rfl),hitems]
    refine gather_returns (fun x hx => ?_)
    obtain ⟨m,hm,rfl⟩ := List.mem_map.mp hx
    obtain ⟨j,rfl⟩ := (hms m hm).succ
    obtain ⟨c,hc⟩ := hms m hm
    refine (hc.hasWord (by decide +kernel)).bind (fun b _ => .pure (fun x hx => ?_))
    cases b with
    | true => exact ⟨m,List.mem_singleton.mp hx,hms m hm⟩
    | false => exact absurd hx List.not_mem_nil
  unfold isIndented
  refine hcommas.bind (fun commas hcommas => ?_)
  refine (Read.Returns.mapM (fun x hx => ?_)).bind (fun _ _ => .pure trivial)
  obtain ⟨m,rfl,hm⟩ := hcommas x hx
  exact .known (a := t.depth) rfl ((hm.gathered (by omega) (by omega) (by decide +kernel)).imp (fun _ _ => trivial))

omit hl hflavour hitems in
theorem lineItems_returns (leading : Bool) {previous : Value} (hdepth : i < t.depth)
    (hprevious : previous = .none ∨ ∃ m, previous = .node m ∧ t.Tree i m) :
    (lineItems leading previous (ms.map .node)).Returns t (fun _ => True) := by
  induction ms generalizing previous with
  | nil => exact .pure trivial
  | cons m ms ih =>
    have hm := hms m List.mem_cons_self
    have hrest : (lineItems leading (.node m) (ms.map .node)).Returns t (fun _ => True) :=
      ih (List.forall_mem_cons.mp hms).2 (.inr ⟨m,rfl,hm⟩)
    have hcons : ∀ x, (do return x :: (← lineItems leading (.node m) (ms.map .node)) : Read (List Value)).Returns t
        (fun _ => True) := fun x => hrest.bind (fun _ _ => .pure trivial)
    change (lineItems leading previous (.node m :: ms.map .node)).Returns t _
    unfold lineItems
    refine .known hm.hasType_endl ?_
    split
    · exact hcons _
    · have hafter : ∀ blank : Bool, (if blank = true then do return previous :: (← lineItems leading (.node m) (ms.map .node))
          else if (leading && previous.isNone) = true then do return .node m :: (← lineItems leading (.node m) (ms.map .node))
          else lineItems leading (.node m) (ms.map .node) : Read (List Value)).Returns t (fun _ => True) := by
        intro blank
        split
        · exact hcons _
        · split
          · exact hcons _
          · exact hrest
      rcases hprevious with rfl | ⟨k,rfl,hk⟩
      · exact .known rfl (hafter false)
      · have hfilled := hk.truth hdepth
        cases h : t.filled k with
        | true => exact .known (hfilled.trans (congrArg _ h)) (.known hk.hasType_endl (hafter _))
        | false => exact .known (hfilled.trans (congrArg _ h)) (hafter false)

theorem newViewOf_run (form : ViewForm) (place : Option Attr) (p : Parser) (hdepth : i + 1 < t.depth) :
    ∃ w u, newViewOf form (.list l) place p t = .ok w u := by
  obtain ⟨shown,hshown,-⟩ := significant_returns hl hflavour hitems hms
  obtain ⟨b,hb,-⟩ := isIndented_returns hl hflavour hitems hms hdepth
  obtain ⟨lines,hlines,-⟩ := lineItems_returns hms false (by omega) (.inl rfl)
  have hall : items (.list l) t = .ok (ms.map .node) := by
    rw [← hitems]
    exact Read.list_known hl
  unfold newViewOf
  rw [Edit.read_known hshown]
  cases form with
  | comma => exact ⟨_,_,Edit.read_known hb⟩
  | bare => exact ⟨_,_,rfl⟩
  | dotted => exact ⟨_,_,rfl⟩
  | lines | decorators | document => exact ⟨_,_,(Edit.read_known hall).trans (Edit.read_known hlines)⟩

end Rows
end Views

section Filling
variable {p : Parser} {k : Kind} {f : Field} {fields : List (String × Datum)} {s t : Store} {n : NodeId} {c : NodeCell}
  {form : Form} {shown : Shown} {v : Value}

/-- A node is built from the datum, wherever and in whatever store. -/
def Builds (p : Parser) (d : Datum) : Prop :=
  ∀ (parent : Value) (place : Option Attr) (s : Store), ∃ n t, build d parent place p s = .ok n t

theorem buildEach_run (h : ∀ d ∈ ds, Builds p d) (parent : Value) (place : Option Attr) (s : Store) :
    ∃ vs t, buildEach ds parent place p s = .ok vs t := by
  induction ds generalizing s with
  | nil => exact ⟨_,_,rfl⟩
  | cons d ds ih =>
    obtain ⟨n,s₁,h₁⟩ := h d List.mem_cons_self parent place s
    obtain ⟨vs,s₂,h₂⟩ := ih (List.forall_mem_cons.mp h).2 s₁
    exact ⟨_,s₂,Edit.bind_ok.mpr ⟨n,s₁,h₁,Edit.bind_ok.mpr ⟨vs,s₂,h₂,rfl⟩⟩⟩

/-- The fields of a record have what a slot needs. -/
def Fed (p : Parser) (k : Kind) (fields : List (String × Datum)) : Slot → Prop
  | .constant _ _ => True
  | .field form f _ => ∃ d, lookupLast f.word fields = some d ∧
    match form with
    | .text | .flag => Admits p k f d
    | .child => d.truth = true → Builds p d
    | .children | .formatting => ∃ ds, buildItems d = buildEach ds ∧ ∀ e ∈ ds, Builds p e

/-- Kinds whose value, if it is a text, has to be confirmed by the parser. -/
def Kind.confirms (k : Kind) (f : Field) : Bool :=
  match k, f with
  | .binary, .value | .binaryOperator, .value | .booleanOperator, .value | .comparison, .value => true
  | _, _ => false

/-- Only texts are checked. -/
def Slot.checksText (k : Kind) : Slot → Bool
  | .constant _ _ => true
  | .field form f _ => form.isText || !k.checks f || k.confirms f

theorem layout_checksText (k : Kind) : ∀ slot ∈ k.layout, slot.checksText k = true := by
  cases k <;> decide

/-- What is no text is stored as it is. -/
theorem prepareStore_held (hslot : .field form f shown ∈ k.layout) (hform : form.isText = false)
    (hv : ∀ x, v ≠ .text x) (n : NodeId) : prepareStore n k (.field f) v = pure v := by
  have hchecks : (form.isText || !k.checks f || k.confirms f) = true := layout_checksText k _ hslot
  rw [hform,Bool.false_or,Bool.or_eq_true,Bool.not_eq_true'] at hchecks
  rcases hchecks with hchecks | hconfirms
  · exact prepareStore_unchecked hchecks n v
  · unfold Kind.confirms at hconfirms
    split at hconfirms
    case h_5 => cases hconfirms
    all_goals
      cases v with
      | text x => exact absurd rfl (hv x)
      | _ => rfl

theorem wrapHeld_view_run {l : ListId} {view : ViewForm} {w : ViewId} (hc : s.nodes[n.index]? = some c)
    (hview : c.kind.viewForm f = some view) (hheld : c.stored? (.field f) = some (.list l))
    (hnew : newViewOf view (.list l) (some (.field f)) p s = .ok w t) (hshown : c.building = true ∨
      ∃ vc, t.views[w.index]? = some vc ∧ ∀ x ∈ vc.items, ∃ m, x = .node m) : ∃ u, wrapHeld n (.field f) p s = .ok () u := by
  unfold wrapHeld
  rw [Edit.node_known hc]
  dsimp only
  rw [hview]
  dsimp only
  rw [Edit.read_known (look_stored hc hheld)]
  dsimp only
  change ∃ u, (newViewOf view (.list l) (some (.field f)) >>= _) p s = .ok () u
  rw [Edit.run_bind,hnew]
  dsimp only
  rcases hshown with hb | ⟨vc,hvc,hnodes⟩
  · rw [hb]
    exact ⟨_,rfl⟩
  · split
    · rw [Edit.view_known hvc]
      obtain ⟨u,hu,-⟩ := setHolders_run hnodes (.node n) (some (.field f)) p t
      exact ⟨_,Edit.bind_ok.mpr ⟨_,_,hu,rfl⟩⟩
    · exact ⟨_,rfl⟩

theorem storeBuilt_run {s' : Store} {v' : Value} (hc : s.nodes[n.index]? = some c)
    (hprep : prepareStore n c.kind (.field f) v p s = .ok v' s')
    (hwrap : ∃ t, wrapHeld n (.field f) p (s'.mapNode n (·.put (.field f) v')) = .ok () t) :
    ∃ t, storeBuilt n f v p s = .ok () t := by
  obtain ⟨t,hwrap⟩ := hwrap
  unfold storeBuilt
  rw [Edit.node_known hc]
  exact ⟨t,Edit.bind_ok.mpr ⟨_,_,hprep,Edit.bind_ok.mpr ⟨_,_,rfl,hwrap⟩⟩⟩

section Slots
variable (hc : s.nodes[n.index]? = some c) (hb : c.building = true)
include hc

include hb in
theorem storeBuilt_text_run (hview : c.kind.viewForm f = none) (hadmits : Admits p c.kind f d) :
    ∃ t, storeBuilt n f (.ofDatum d) p s = .ok () t := by
  obtain ⟨v,s₁,h⟩ := hadmits hc hb
  obtain ⟨-,-,c₁,hc₁,hrewrites,-⟩ := prepareStore_datum hc hb d v s₁ h
  have hc₂ : (s₁.mapNode n (·.put (.field f) v)).nodes[n.index]? = some (c₁.put (.field f) v) := Store.mapNode_self hc₁
  exact storeBuilt_run hc h ⟨_,wrapHeld_plain hc₂ ((congrArg (Kind.viewForm · f) hrewrites.kind).trans hview)⟩

theorem storeBuilt_held_run (hslot : .field form f shown ∈ c.kind.layout) (hform : form.isText = false)
    (hv : ∀ x, v ≠ .text x) (hview : c.kind.viewForm f = none) : ∃ t, storeBuilt n f v p s = .ok () t := by
  have hc₁ : (s.mapNode n (·.put (.field f) v)).nodes[n.index]? = some (c.put (.field f) v) := Store.mapNode_self hc
  have hprep : prepareStore n c.kind (.field f) v p s = .ok v s := by
    rw [prepareStore_held hslot hform hv]
    rfl
  exact storeBuilt_run hc hprep ⟨_,wrapHeld_plain hc₁ hview⟩

include hb in
/-- New nodes are put into a new list, which is stored with a view around it where the kind asks for one. -/
theorem storeBuilt_row_run {s₀ : Store} (hslot : .field form f shown ∈ c.kind.layout) (hform : form.isList = true)
    (h : buildEach ds (.node n) (some (.field f)) p s = .ok vs s₀) :
    ∃ t, storeBuilt n f (.list ⟨s₀.lists.size⟩) p (s₀.addList ⟨.nodes,vs,.node n,some (.field f),[]⟩) = .ok () t := by
  have hn := Store.lt_nodes_of_get hc
  have hgrows : s.Grows (s₀.addList ⟨.nodes,vs,.node n,some (.field f),[]⟩) :=
    ((buildItems_adds (.list ds) _ _).grows h).trans (Store.grows_addList _ _)
  have hc₁ := (hgrows.nodes _ hn).trans hc
  have htext : form.isText = false := by cases form <;> first | rfl | cases hform
  cases hview : c.kind.viewForm f with
  | none => exact storeBuilt_held_run hc₁ hslot htext (by simp) hview
  | some view =>
    let s₁ := s₀.addList ⟨.nodes,vs,.node n,some (.field f),[]⟩
    let s₂ := s₁.mapNode n (·.put (.field f) (.list ⟨s₀.lists.size⟩))
    have hc₂ : s₂.nodes[n.index]? = some (c.put (.field f) (.list ⟨s₀.lists.size⟩)) := Store.mapNode_self hc₁
    have hl : s₂.lists[s₀.lists.size]? = some ⟨.nodes,vs,.node n,some (.field f),[]⟩ := by
      rw [Store.mapNode_lists,Store.addList_get]
      exact if_pos rfl
    have hadd := Store.grows_addList s₀ ⟨.nodes,vs,.node n,some (.field f),[]⟩
    have hkept : Kept (buildEach ds (.node n) (some (.field f))) p s.mark s₀.mark vs s₂ :=
      (Kept.of_run h).agree ((hadd.agree _).trans ((Store.growsOff_mapNode s₁ n _).agree hn hadd.mark))
    obtain ⟨ms,rfl,hms,-⟩ := hkept.siblings (fun d _ => built_tree d) (Nat.le_refl _)
      (show s₀.nodes.size ≤ s.nodes.size + (s₀.nodes.size - s.nodes.size) by omega)
    have hdepth : s₀.nodes.size - s.nodes.size + 1 < s₂.depth := by
      have hnodes : s₂.nodes.size = s₀.nodes.size := by simp [s₂,s₁]
      have hlists : s₂.lists.size = s₀.lists.size + 1 := by simp [s₂,s₁]
      unfold Store.depth
      omega
    obtain ⟨w,t,hnew⟩ := newViewOf_run (l := ⟨s₀.lists.size⟩) hl rfl rfl (fun m hm => (hms.each m hm).tree) view
      (some (.field f)) p hdepth
    have hprep : prepareStore n c.kind (.field f) (.list ⟨s₀.lists.size⟩) p s₁ = .ok (.list ⟨s₀.lists.size⟩) s₁ := by
      rw [prepareStore_held hslot htext (by simp)]
      rfl
    exact storeBuilt_run hc₁ hprep (wrapHeld_view_run hc₂ hview (NodeCell.stored_put_self _ _ _) hnew (.inl hb))

include hb in
/-- A slot is filled if the record has what it needs. -/
theorem fillSlot_run {slot : Slot} (hslot : slot ∈ c.kind.layout) (hfed : Fed p c.kind fields slot) :
    ∃ t, fillSlot n (branches fields) slot p s = .ok () t := by
  have hn := Store.lt_nodes_of_get hc
  cases slot with
  | constant text shown => exact ⟨s,rfl⟩
  | field form f shown =>
    obtain ⟨d,hd,hneeds⟩ := hfed
    have hfits := layout_fits c.kind _ hslot
    simp only [Slot.fits,Bool.and_eq_true,Bool.or_eq_true,Option.isNone_iff_eq_none,beq_iff_eq] at hfits
    have hview : form ≠ .children → c.kind.viewForm f = none := fun hne => hfits.1.1.1.1.resolve_right hne
    have hlast : ∀ {s : Store} {e : Edit Unit} {g : NodeCell → NodeCell}, (∃ t, e p s = .ok () t) →
        ∃ t, (do e; Edit.updateNode n g : Edit Unit) p s = .ok () t := by
      rintro s e g ⟨t,h⟩
      exact ⟨_,Edit.bind_ok.mpr ⟨_,_,h,rfl⟩⟩
    have hrow : ∀ {g : NodeCell → NodeCell}, form.isList = true → (∃ ds, buildItems d = buildEach ds ∧ ∀ e ∈ ds, Builds p e) → ∃ t, (do
        let inside ← buildItems d (.node n) (some (.field f))
        let l ← newNodeList inside (.node n) (some (.field f))
        storeBuilt n f (.list l)
        Edit.updateNode n g : Edit Unit) p s = .ok () t := by
      rintro g hform ⟨ds,hitems,hds⟩
      obtain ⟨vs,s₀,hvs⟩ := buildEach_run hds (.node n) (some (.field f)) s
      rw [hitems]
      obtain ⟨t,ht⟩ := hlast (g := g) (storeBuilt_row_run hc hb hslot hform hvs)
      exact ⟨t,Edit.bind_ok.mpr ⟨_,_,hvs,ht⟩⟩
    cases form with
    | text =>
      simp only [fillSlot,lookupLast_branches,hd,Option.map_some,branchFor]
      exact hlast (storeBuilt_text_run hc hb (hview (by decide)) hneeds)
    | flag =>
      simp only [fillSlot,lookupLast_branches,hd,Option.map_some,branchFor]
      exact hlast (storeBuilt_text_run hc hb (hview (by decide)) hneeds)
    | child =>
      simp only [fillSlot,lookupLast_branches,hd,Option.map_some,branchFor]
      split
      · next htruth =>
        obtain ⟨m,s₀,hm⟩ := hneeds htruth (.node n) (some (.field f)) s
        have hc₀ := (((build_adds d _ _).grows hm).nodes _ hn).trans hc
        obtain ⟨t,ht⟩ := hlast (storeBuilt_held_run (v := .node m) hc₀ hslot rfl (by simp) (hview (by decide)))
        exact ⟨t,Edit.bind_ok.mpr ⟨_,_,hm,ht⟩⟩
      · exact hlast (storeBuilt_held_run (v := .none) hc hslot rfl (by simp) (hview (by decide)))
    | children =>
      simp only [fillSlot,lookupLast_branches,hd,Option.map_some,branchFor]
      exact hrow rfl hneeds
    | formatting =>
      simp only [fillSlot,lookupLast_branches,hd,Option.map_some,branchFor]
      exact hrow rfl hneeds

end Slots

theorem fillSlots_run (hc : s.nodes[n.index]? = some c) (hb : c.building = true)
    (hslots : ∀ slot ∈ slots, slot ∈ c.kind.layout ∧ Fed p c.kind fields slot) :
    ∃ t, fillSlots n (branches fields) slots p s = .ok () t := by
  induction slots generalizing s c with
  | nil => exact ⟨s,rfl⟩
  | cons slot slots ih =>
    obtain ⟨hslot,hfed⟩ := hslots slot List.mem_cons_self
    obtain ⟨s₁,h₁⟩ := fillSlot_run hc hb hslot hfed
    obtain ⟨c₁,hc₁,hkind,hb₁⟩ : ∃ c₁, s₁.nodes[n.index]? = some c₁ ∧ c₁.kind = c.kind ∧ c₁.building = true := by
      cases slot with
      | constant text shown =>
        obtain ⟨-,rfl⟩ := Edit.pure_ok.mp h₁
        exact ⟨c,hc,rfl,hb⟩
      | field form f shown =>
        obtain ⟨d,c₁,hrun⟩ := fillSlot_ok hc hb (layout_fits _ _ hslot) h₁
        exact ⟨c₁,hrun.cell,hrun.kind,hrun.building.trans hb⟩
    obtain ⟨t,ht⟩ := ih hc₁ hb₁ (fun slot hmem => hkind ▸ hslots slot (List.mem_cons_of_mem _ hmem))
    exact ⟨t,Edit.bind_ok.mpr ⟨_,_,h₁,ht⟩⟩

/-- A record names a kind and has what the slots of that kind need; the value of an integer has to be one. -/
structure Ready (p : Parser) (k : Kind) (fields : List (String × Datum)) : Prop where
  named : lookupLast "type" fields = some (.text k.word)
  known : Kind.ofWord? k.word = some k
  fed : ∀ slot ∈ k.layout, Fed p k fields slot
  number : k = .int → ∃ d i, lookupLast "value" fields = some d ∧ literalInteger (.ofDatum d) = .ok i

/-- A node is filled from a record that has what its kind needs. -/
theorem fill_run (hc : s.nodes[n.index]? = some c) (hready : Ready p c.kind fields) (parent : Value) (place : Option Attr) :
    ∃ t, fill n parent place (branches fields) p s = .ok () t := by
  let s₁ := s.mapNode n (fun c => { c with
    building := true, parent := parent, place := place, texts := [.type], lists := [], children := [] })
  let s₂ := s₁.mapNode n (·.put (.field .type) (.text c.kind.word))
  have hc₂ : s₂.nodes[n.index]? = some (c.start parent place) := by
    simp only [s₂,s₁,Store.mapNode_get,if_pos,hc]
    rfl
  obtain ⟨s₃,h₃⟩ := fillSlots_run hc₂ rfl (fun slot hslot => ⟨hslot,hready.fed slot hslot⟩)
  obtain ⟨c₃,hfilled⟩ := fillSlots_ok hc₂ rfl (layout_fits _) (layout_nodup _) h₃
  have hc₄ : (s₃.mapNode n (fun c => { c with building := false })).nodes[n.index]? = some { c₃ with building := false } := Store.mapNode_self hfilled.cell
  have hlast : ∃ t, (do
      if (← Read.node n).kind == .int then
        let i ← Edit.lift (literalInteger (← look n (.field .value)))
        putAttr n (.field .value) (.int i) : Edit Unit) p (s₃.mapNode n (fun c => { c with building := false })) = .ok () t := by
    rw [Edit.node_known hc₄]
    have hkind : c₃.kind = c.kind := hfilled.kind
    by_cases hint : c.kind = .int
    · rw [if_pos (by rw [hkind,hint]; rfl)]
      obtain ⟨d,i,hd,hi⟩ := hready.number hint
      obtain ⟨d',hd',hv⟩ := hfilled.value hint
      cases hd.symm.trans hd'
      rw [Edit.read_known (look_stored hc₄ hv)]
      exact ⟨_,Edit.bind_ok.mpr ⟨i,_,Edit.lift_ok.mpr ⟨hi,rfl⟩,rfl⟩⟩
    · rw [if_neg (by rw [hkind]; simpa using hint)]
      exact ⟨_,rfl⟩
  obtain ⟨t,ht⟩ := hlast
  unfold fill
  rw [lookupLast_branches,hready.named]
  exact ⟨t,Edit.bind_ok.mpr ⟨_,s₁,rfl,Edit.bind_ok.mpr ⟨_,s₂,rfl,(Edit.node_known hc₂).trans
    (Edit.bind_ok.mpr ⟨_,_,Edit.lift_ok.mpr ⟨NodeCell.start_layout _ _ _,rfl⟩,Edit.bind_ok.mpr ⟨_,_,h₃,
      Edit.bind_ok.mpr ⟨_,_,rfl,ht⟩⟩⟩)⟩⟩⟩

theorem Ready.builds (hready : Ready p k fields) : Builds p (.record fields) := by
  intro parent place s
  have hc : (s.addNode ⟨k,parent,place,true,[],[],[],[],none⟩).nodes[s.nodes.size]? = some ⟨k,parent,place,true,[],[],[],[],none⟩ := by
    rw [Store.addNode_get]
    exact if_pos rfl
  obtain ⟨t,ht⟩ := fill_run (n := ⟨s.nodes.size⟩) hc hready parent place
  refine ⟨⟨s.nodes.size⟩,t,?_⟩
  unfold build buildRecord
  rw [lookupLast_branches,hready.named]
  simp only [Option.map_some,branchFor,hready.known]
  exact Edit.bind_ok.mpr ⟨_,_,rfl,Edit.bind_ok.mpr ⟨_,_,ht,rfl⟩⟩

/-- A datum that was built once is built wherever it is to hang. -/
def Rebuilds (d : Datum) : Prop :=
  ∀ ⦃p : Parser⦄ ⦃a b : Mark⦄ ⦃n : NodeId⦄ ⦃parent : Value⦄ ⦃place : Option Attr⦄ ⦃t : Store⦄,
    Kept (build d parent place) p a b n t → Builds p d

theorem Kept.builds_each (h : Kept (buildEach ds parent place) p a b vs t) (hds : ∀ d ∈ ds, Rebuilds d) :
    ∀ d ∈ ds, Builds p d := by
  induction ds generalizing a vs with
  | nil => simp
  | cons d ds ih =>
    obtain ⟨m,rest,e,-,hd,hrest,-⟩ := h.cons
    intro x hx
    rcases List.mem_cons.mp hx with rfl | hx
    · exact hds x List.mem_cons_self hd
    · exact ih hrest (List.forall_mem_cons.mp hds).2 x hx

section Again
variable (hagain : ∀ {word d}, lookupLast word fields = some d → Rebuilds d ∧ ∀ ds, d = .list ds → ∀ e ∈ ds, Rebuilds e)
include hagain

theorem SlotRun.fed {c' : NodeCell} (h : SlotRun p n fields c c' form f shown d s t) :
    Fed p c.kind fields (.field form f shown) := by
  obtain ⟨v,-,hheld⟩ := h.held
  refine ⟨d,h.found,?_⟩
  have hlist : HoldsList p t n c.kind f d s.mark t.mark v → ∃ ds, buildItems d = buildEach ds ∧ ∀ e ∈ ds, Builds p e := by
    rintro ⟨ms,e,-,hkept,-⟩
    obtain ⟨ds,hkept,rfl | ⟨rfl,rfl | rfl⟩⟩ := hkept.items
    · exact ⟨ds,rfl,hkept.builds_each ((hagain h.found).2 ds rfl)⟩
    · exact ⟨[],rfl,by simp⟩
    · exact ⟨[],rfl,by simp⟩
  cases form with
  | text => exact h.admits rfl
  | flag => exact h.admits rfl
  | child =>
    intro htruth
    obtain ⟨m,e,-,-,hkept⟩ := (if_pos htruth).mp hheld
    exact (hagain h.found).1 hkept
  | children => exact hlist hheld
  | formatting => exact hlist hheld

theorem fillSlots_fed (hc : s.nodes[n.index]? = some c) (hb : c.building = true)
    (hfits : ∀ slot ∈ slots, slot.fits c.kind = true) (h : fillSlots n (branches fields) slots p s = .ok () t) :
    ∀ slot ∈ slots, Fed p c.kind fields slot := by
  induction slots generalizing s c with
  | nil => simp
  | cons slot rest ih =>
    obtain ⟨_,u,hslot,hrest⟩ := Edit.bind_ok.mp h
    have hfits' := fun slot h => hfits slot (List.mem_cons_of_mem _ h)
    cases slot with
    | constant text shown =>
      obtain ⟨-,rfl⟩ := Edit.pure_ok.mp hslot
      exact List.forall_mem_cons.mpr ⟨trivial,ih hc hb hfits' hrest⟩
    | field form f shown =>
      obtain ⟨d,c',hrun⟩ := fillSlot_ok hc hb (hfits _ List.mem_cons_self) hslot
      rw [← hrun.kind] at hfits'
      have hfed := ih hrun.cell (hrun.building.trans hb) hfits' hrest
      rw [hrun.kind] at hfed
      exact List.forall_mem_cons.mpr ⟨hrun.fed hagain,hfed⟩

theorem fill_fed (hc : s.nodes[n.index]? = some c) (htype : lookupLast "type" fields = some (.text c.kind.word))
    (h : fill n parent place (branches fields) p s = .ok () t) : ∀ slot ∈ c.kind.layout, Fed p c.kind fields slot := by
  unfold fill at h
  obtain ⟨_,s₁,h₁,h⟩ := Edit.bind_ok.mp h
  have hs₁ := Edit.updateNode_ok.mp h₁
  rw [lookupLast_branches,htype] at h
  obtain ⟨_,s₂,h₂,h⟩ := Edit.bind_ok.mp h
  have hs₂ := Edit.updateNode_ok.mp h₂
  have hc₂ : s₂.nodes[n.index]? = some (c.start parent place) := by
    simp only [hs₂,hs₁,Store.mapNode_get,if_pos,hc]
    rfl
  rw [Edit.node_known hc₂,NodeCell.start_layout] at h
  obtain ⟨layout,_,hlayout,h⟩ := Edit.bind_ok.mp h
  obtain ⟨heq,rfl⟩ := Edit.lift_ok.mp hlayout
  cases heq
  obtain ⟨_,s₃,h₃,-⟩ := Edit.bind_ok.mp h
  exact fillSlots_fed (c := c.start parent place) hagain hc₂ rfl (layout_fits c.kind) h₃

end Again

theorem rebuilds (d : Datum) : Rebuilds d := by
  induction d using Datum.induct_built with
  | other d hd => exact fun _ _ _ _ _ _ _ h => (h.not_built hd).elim
  | record fields ih =>
    intro p a b n parent place t h
    obtain ⟨_,k,c,heq,hg⟩ := h.grown
    cases heq
    refine Ready.builds ⟨hg.named,hg.known,?_,fun hint => ?_⟩
    · obtain ⟨u,v,-,-,hrun,-⟩ := h
      unfold build buildRecord at hrun
      rw [lookupLast_branches,hg.named] at hrun
      simp only [Option.map_some,branchFor,hg.known] at hrun
      obtain ⟨m,_,hnew,hrun⟩ := Edit.bind_ok.mp hrun
      obtain ⟨rfl,rfl⟩ := Edit.newNode_ok.mp hnew
      obtain ⟨_,_,hfill,-⟩ := Edit.bind_ok.mp hrun
      have hcell : (u.addNode ⟨k,parent,place,true,[],[],[],[],none⟩).nodes[u.nodes.size]? = some ⟨k,parent,place,true,[],[],[],[],none⟩ := by
        rw [Store.addNode_get]
        exact if_pos rfl
      exact fill_fed ih hcell hg.named hfill
    · obtain ⟨d,i,hd,hi,-⟩ := hg.number hint
      exact ⟨d,i,hd,hi⟩

end Filling

section Steady

mutual

/-- Whether something holds of every record in a datum. -/
def Datum.every (P : List (String × Datum) → Bool) : Datum → Bool
  | .record fields => P fields && everyField P fields
  | .list ds => everyItem P ds
  | _ => true

def everyItem (P : List (String × Datum) → Bool) : List Datum → Bool
  | [] => true
  | d :: ds => d.every P && everyItem P ds

def everyField (P : List (String × Datum) → Bool) : List (String × Datum) → Bool
  | [] => true
  | (_, d) :: rest => d.every P && everyField P rest

end

/-- The operator of an assignment has no equals sign at its end. A number that is given as such and not as a text has no
more digits than are read. -/
def steadyRecord (fields : List (String × Datum)) : Bool :=
  match kindOf fields with
  | some .assignment =>
    match lookupLast "operator" fields with
    | some (.text s) => s.toList.getLast? != some '='
    | _ => true
  | some .int =>
    match lookupLast "value" fields with
    | some (.int i) => (Nat.toDigits 10 i.natAbs).length ≤ 4300
    | _ => true
  | _ => true

/-- Data that are written back as they are once they were built. -/
def Datum.steady (d : Datum) : Bool := d.every steadyRecord

variable {fields : List (String × Datum)} {ds : List Datum} {d : Datum} {word : String} {k : Kind} {f : Field}

theorem Datum.steady_item (h : (Datum.list ds).steady = true) (hd : d ∈ ds) : d.steady = true := by
  change everyItem steadyRecord ds = true at h
  induction ds with
  | nil => cases hd
  | cons e ds ih =>
    simp only [everyItem,Bool.and_eq_true] at h
    rcases List.mem_cons.mp hd with rfl | hd
    · exact h.1
    · exact ih hd h.2

theorem Datum.steady_record (h : (Datum.record fields).steady = true) : steadyRecord fields = true ∧
    ∀ word d, lookupLast word fields = some d → d.steady = true := by
  have hfields : ∀ xs : List (String × Datum), everyField steadyRecord xs = true → ∀ x ∈ xs, x.2.steady = true := by
    intro xs hxs
    induction xs with
    | nil => simp
    | cons x xs ih =>
      obtain ⟨key,e⟩ := x
      simp only [everyField,Bool.and_eq_true] at hxs
      exact List.forall_mem_cons.mpr ⟨hxs.1,ih hxs.2⟩
  simp only [Datum.steady,Datum.every,Bool.and_eq_true] at h
  exact ⟨h.1,fun word d hd => hfields fields h.2 _ (lookupLast_mem hd)⟩

theorem keeps_steady (hkind : kindOf fields = some k) (hsteady : steadyRecord fields = true)
    (hd : lookupLast f.word fields = some d) : k.keeps f (.ofDatum d) = .ofDatum d := by
  by_cases hop : k = .assignment ∧ f = .operator
  · obtain ⟨rfl,rfl⟩ := hop
    have hword : lookupLast "operator" fields = some d := hd
    simp only [steadyRecord,hkind,hword] at hsteady
    cases d with
    | text s => exact Kind.keeps_operator (by simpa using hsteady)
    | _ => rfl
  · exact Kind.keeps_eq (fun hk hf => hop ⟨hk,hf⟩) _

theorem integer_settled {i : Int} (hkind : kindOf fields = some .int) (hsteady : steadyRecord fields = true)
    (hd : lookupLast "value" fields = some d) (hi : literalInteger (.ofDatum d) = .ok i) :
    literalInteger (.text (toString i)) = .ok i := by
  have hlength : (Nat.toDigits 10 i.natAbs).length ≤ 4300 := by
    simp only [steadyRecord,hkind,hd] at hsteady
    cases d with
    | int j =>
      cases hi
      simpa using hsteady
    | bool b =>
      cases hi
      cases b <;> decide
    | text s =>
      simp only [literalInteger,Value.ofDatum] at hi
      split at hi
      · next hread =>
        cases hi
        exact Text.integer_length hread
      · cases hi
    | _ => cases hi
  simp only [literalInteger,Text.integer_toString hlength]

end Steady

section Again
variable {p : Parser} {t : Store} {a b : Mark} {n : NodeId} {parent : Value} {place : Option Attr}
  {fields : List (String × Datum)} {k : Kind} {c : NodeCell} (hg : Grown p t a b n parent place fields k c)

/-- What was built is written back as a record that is ready to be built again, and that is written back as itself. -/
def Resettles (d : Datum) : Prop :=
  ∀ ⦃p : Parser⦄ ⦃a b : Mark⦄ ⦃n : NodeId⦄ ⦃parent : Value⦄ ⦃place : Option Attr⦄ ⦃t : Store⦄,
    Kept (build d parent place) p a b n t → d.steady = true →
      settled (settled d) = settled d ∧ ∃ k fields, settled d = .record fields ∧ Ready p k fields

theorem Resettles.builds (h : Resettles d) (hkept : Kept (build d parent place) p a b n t) (hsteady : d.steady = true) :
    settled (settled d) = settled d ∧ Builds p (settled d) := by
  obtain ⟨hagain,k,fields,hfields,hready⟩ := h hkept hsteady
  exact ⟨hagain,hfields ▸ hready.builds⟩

/-- How an integer is written back. -/
def numberFields (text : String) : List (String × Datum) :=
  [("type",.text "int"),("value",.text text),("section",.text "number")]

theorem numberFields_type (text : String) : lookupLast "type" (numberFields text) = some (.text Kind.int.word) := by
  simp [numberFields,lookupLast,Kind.word]

theorem numberFields_value (text : String) : lookupLast "value" (numberFields text) = some (.text text) := by
  simp [numberFields,lookupLast]

include hg in
theorem Grown.resettles_number (hk : k = .int) (hsteady : steadyRecord fields = true) :
    settled (settled (.record fields)) = settled (.record fields) ∧
      ∃ k' fields', settled (.record fields) = .record fields' ∧ Ready p k' fields' := by
  subst hk
  obtain ⟨d,i,hd,hi,-⟩ := hg.number rfl
  have hagain := integer_settled hg.kindOf hsteady hd hi
  have hsettled : ∀ {fields d}, kindOf fields = some .int → lookupLast "value" fields = some d →
      literalInteger (.ofDatum d) = .ok i → settled (.record fields) = .record (numberFields (toString i)) := by
    intro fields d hkind hd hi
    have hnumber : settledNumber fields = toString i := by
      unfold settledNumber
      rw [hd]
      simp only [Option.getD_some,hi]
    simp only [settled,settledRecord,hkind,hnumber,numberFields]
  have hkind := kindOf_of_named (numberFields_type (toString i)) hg.known
  rw [hsettled hg.kindOf hd hi]
  refine ⟨hsettled hkind (numberFields_value _) hagain,.int,_,rfl,numberFields_type _,hg.known,fun slot hslot => ?_,
    fun _ => ⟨_,i,numberFields_value _,hagain⟩⟩
  cases List.mem_singleton.mp hslot
  exact ⟨_,numberFields_value _,admits_unchecked rfl⟩

theorem after_subset (f : Field) (slots : List Slot) : after f slots ⊆ slots := by
  induction slots with
  | nil => exact List.Subset.refl _
  | cons slot slots ih =>
    cases slot with
    | constant text shown => exact List.subset_cons_of_subset _ ih
    | field form g shown =>
      unfold after
      split
      · exact List.subset_cons_self _ _
      · exact List.subset_cons_of_subset _ ih

theorem Kept.each (h : Kept (buildEach ds parent place) p a b vs t) (hd : d ∈ ds) :
    ∃ x y m, Kept (build d parent place) p x y m t := by
  induction ds generalizing a vs with
  | nil => cases hd
  | cons e ds ih =>
    obtain ⟨n,rest,m,-,hn,hrest,-⟩ := h.cons
    rcases List.mem_cons.mp hd with rfl | hd
    · exact ⟨_,_,n,hn⟩
    · exact ih hrest hd

theorem builds_space : Builds p spaceDatum := by
  refine Ready.builds (k := .space) ⟨by simp [lookupLast,Kind.word],by decide +kernel,fun slot hslot => ?_,
    fun h => by cases h⟩
  cases List.mem_singleton.mp hslot
  exact ⟨.text " ",by simp [lookupLast,Field.word],admits_unchecked rfl⟩

theorem builds_lineEnd (x : String) : Builds p (lineEnd x) := by
  refine Ready.builds (k := .endl) ⟨by simp [lookupLast,Kind.word],by decide +kernel,fun slot hslot => ?_,
    fun h => by cases h⟩
  simp only [Kind.layout,List.mem_cons,List.not_mem_nil,or_false] at hslot
  rcases hslot with rfl | rfl | rfl
  · exact ⟨.list [],by simp [lookupLast,Field.word],[],rfl,by simp⟩
  · exact ⟨.text "\n",by simp [lookupLast,Field.word],admits_unchecked rfl⟩
  · exact ⟨.text x,by simp [lookupLast,Field.word],admits_unchecked rfl⟩

/-- A sign with spacing before and after it. -/
theorem builds_sign {k : Kind} {sign : String} (hlayout : k.layout = [.field .formatting .firstFormatting .always,
      .constant sign .always,.field .formatting .secondFormatting .always])
    (hknown : Kind.ofWord? k.word = some k) (hds : ∀ e ∈ ds, Builds p e) :
    Builds p (.record [("type",.text k.word),("first_formatting",.list []),("second_formatting",.list ds)]) := by
  refine Ready.builds ⟨by simp [lookupLast],hknown,fun slot hslot => ?_,fun h => by subst h; cases hlayout⟩
  rw [hlayout] at hslot
  simp only [List.mem_cons,List.not_mem_nil,or_false] at hslot
  rcases hslot with rfl | rfl | rfl
  · exact ⟨.list [],by simp [lookupLast,Field.word],[],rfl,by simp⟩
  · trivial
  · exact ⟨.list ds,by simp [lookupLast,Field.word],ds,rfl,hds⟩

theorem builds_comma (h : Builds p d) : Builds p (commaDatum d) :=
  builds_sign (k := .comma) rfl (by decide +kernel) (by simpa using h)

theorem builds_dot : Builds p dotDatum := builds_sign (k := .dot) rfl (by decide +kernel) (by simp)

theorem settled_space : settled spaceDatum = spaceDatum := by
  have hkind : kindOf [("type",.text "space"),("value",.text " ")] = some .space := by decide +kernel
  unfold spaceDatum
  rw [settled_record hkind (by decide)]
  rfl

theorem mem_kindFields {f : Field} (h : f ∈ k.textFields ++ k.listFields ++ k.childFields) :
    f = .type ∨ ∃ form shown, .field form f shown ∈ k.layout := by
  simp only [List.mem_append,Kind.textFields,Kind.listFields,Kind.childFields,mem_foldl_add,List.mem_singleton,
    List.not_mem_nil,false_or] at h
  rcases h with ((h | ⟨form,shown,-,hslot⟩) | ⟨form,shown,-,hslot⟩) | ⟨form,shown,-,hslot⟩
  · exact .inl h
  all_goals exact .inr ⟨form,shown,hslot⟩

/-- The fields that a node of some kind is written back with. -/
abbrev settledFor (k : Kind) (fields : List (String × Datum)) : List (String × Datum) :=
  gathered k (settledParts k fields)

section Fields
variable (hk : k ≠ .int) (hsteady : steadyRecord fields = true) {form : Form} {f : Field} {shown : Shown}
include hg hk hsteady

theorem Grown.settled_text (hslot : .field form f shown ∈ k.layout) (hform : form.isText = true) : ∃ d,
    lookupLast f.word fields = some d ∧ settledParts k fields f = d ∧
      lookupLast f.word (settledFor k fields) = some d := by
  obtain ⟨d,-,-,-,hd,-⟩ := hg.slot hk hslot
  have hpart := part_of_keeps hslot hform hd (keeps_steady hg.kindOf hsteady hd)
  exact ⟨d,hd,hpart,(lookup_gathered (slot_field_mem hslot)).trans (congrArg some hpart)⟩

theorem Grown.settled_respaced (f : Field) : respaced k (settledFor k fields) f = respaced k fields f := by
  have hspacing : ∀ slots : List Slot, slots ⊆ k.layout →
      spacingOf k (settledFor k fields) slots = spacingOf k fields slots := by
    intro slots hslots
    unfold spacingOf
    refine List.flatMap_congr (fun g hg' => ?_)
    obtain ⟨form,shown,hslot⟩ := mem_slotFields hg'
    have hlayout := hslots hslot
    cases hspaces : k.respaces g with
    | false =>
      have hnil : ∀ fields : List (String × Datum), ((lookupLast g.word fields).map (respacing k g)).getD [] = [] := by
        intro fields
        cases lookupLast g.word fields with
        | none => rfl
        | some d => exact respacing_eq_nil hspaces d
      rw [hnil,hnil]
    | true =>
      have hfit := layout_fits k _ hlayout
      simp only [Slot.fits,Bool.and_eq_true,Bool.or_eq_true,Bool.not_eq_true',beq_iff_eq,hspaces] at hfit
      have hform : form.isText = true := by
        rcases hfit.1.1.1.2 with hno | rfl
        · cases hno
        · rfl
      obtain ⟨d,hd,-,hagain⟩ := hg.settled_text hk hsteady hlayout hform
      rw [hd,hagain]
  unfold respaced
  rw [hspacing _ (after_subset f k.layout)]

variable (ih : ∀ {word d}, lookupLast word fields = some d →
  (Resettles d ∧ ∀ ds, d = .list ds → ∀ e ∈ ds, Resettles e) ∧ d.steady = true)
include ih

omit hsteady in
/-- A list is written back as a list of nodes that are written back as themselves and can be built. -/
theorem Grown.settled_list (hslot : .field form f shown ∈ k.layout) (hform : form.isList = true) :
    ∃ ds, settledParts k fields f = .list ds ∧ ds.map settled = ds ∧ ∀ e ∈ ds, Builds p e := by
  obtain ⟨d,-,-,-,hd,-⟩ := hg.slot hk hslot
  rw [part_list hslot hform hd]
  cases hr : respaced k fields f with
  | some present =>
    refine ⟨_,rfl,?_,fun e he => ?_⟩
    · cases present
      · rfl
      · exact congrArg (· :: []) settled_space
    · cases present with
      | false => cases he
      | true =>
        cases List.mem_singleton.mp he
        exact builds_space
  | none =>
    obtain ⟨d',ds,x,y,ms,hd',hrow,hds⟩ := hg.list_items hk hslot hform hr
    cases hd.symm.trans hd'
    rcases hds with rfl | ⟨rfl,rfl | rfl⟩
    · have hagain : ∀ e ∈ ds, settled (settled e) = settled e ∧ Builds p (settled e) := by
        intro e he
        obtain ⟨x,y,m,hkept⟩ := hrow.each he
        exact ((ih hd).1.2 ds rfl e he).builds hkept (Datum.steady_item (ih hd).2 he)
      refine ⟨ds.map settled,by simp [settled,settledEach_eq,Datum.asItems],?_,fun e he => ?_⟩
      · rw [List.map_map]
        exact List.map_congr_left (fun e he => (hagain e he).1)
      · obtain ⟨e,hmem,rfl⟩ := List.mem_map.mp he
        exact (hagain e hmem).2
    · exact ⟨[],rfl,rfl,by simp⟩
    · exact ⟨[],rfl,rfl,by simp⟩

/-- What a slot is written back as is written back as itself, and can be built. -/
theorem Grown.settled_slot (hslot : .field form f shown ∈ k.layout) :
    settledParts k (settledFor k fields) f =
      settledParts k fields f ∧ Fed p k (settledFor k fields) (.field form f shown) := by
  have hlookup : lookupLast f.word (settledFor k fields) = some (settledParts k fields f) :=
    lookup_gathered (slot_field_mem hslot)
  have htext : form.isText = true → settledParts k (settledFor k fields) f =
      settledParts k fields f ∧
      ∃ d, lookupLast f.word (settledFor k fields) = some d ∧ Admits p k f d := by
    intro hform
    obtain ⟨d,hd,hpart,hagain⟩ := hg.settled_text hk hsteady hslot hform
    exact ⟨(part_of_keeps hslot hform hagain (keeps_steady hg.kindOf hsteady hd)).trans hpart.symm,d,hagain,
      hg.admits hk hslot hform hd⟩
  have hlist : form.isList = true → settledParts k (settledFor k fields) f =
      settledParts k fields f ∧ ∃ d, lookupLast f.word (settledFor k fields) = some d ∧
        ∃ ds, buildItems d = buildEach ds ∧ ∀ e ∈ ds, Builds p e := by
    intro hform
    obtain ⟨ds,hpart,hds,hbuilds⟩ := hg.settled_list hk ih hslot hform
    refine ⟨?_,_,hlookup,ds,by rw [hpart]; rfl,hbuilds⟩
    obtain ⟨d,-,-,-,hd,-⟩ := hg.slot hk hslot
    rw [part_list hslot hform hlookup,hg.settled_respaced hk hsteady,hpart]
    cases hr : respaced k fields f with
    | some present =>
      rw [part_list hslot hform hd,hr] at hpart
      exact hpart
    | none => simp only [settled,settledEach_eq,Datum.asItems,hds]
  cases form with
  | text => exact htext rfl
  | flag => exact htext rfl
  | children => exact hlist rfl
  | formatting => exact hlist rfl
  | child =>
    obtain ⟨d,-,-,-,hd,-⟩ := hg.slot hk hslot
    rw [part_child hslot hlookup]
    by_cases htruth : d.truth = true
    · obtain ⟨x,y,m,hkept⟩ := hg.child_built hk hslot hd htruth
      have hpart : settledParts k fields f = settled d := (part_child hslot hd).trans (if_pos htruth)
      obtain ⟨hagain,hbuilds⟩ := (ih hd).1.1.builds hkept (ih hd).2
      rw [hpart] at hlookup ⊢
      rw [if_pos (settled_truth hkept),hagain]
      exact ⟨rfl,_,hlookup,fun _ => hbuilds⟩
    · have hpart : settledParts k fields f = .record [] :=
        (part_child hslot hd).trans (if_neg htruth)
      rw [hpart] at hlookup ⊢
      exact ⟨rfl,_,hlookup,fun h => by cases h⟩

end Fields

/-- Every node that was built is written back as a record that is ready to be built again and written back as itself. -/
theorem resettles_built (d : Datum) : Resettles d := by
  induction d using Datum.induct_built with
  | other d hd => exact fun _ _ _ _ _ _ _ h => (h.not_built hd).elim
  | record fields ih =>
    intro p a b n parent place t h hsteady
    obtain ⟨_,k,c,heq,hg⟩ := h.grown
    cases heq
    obtain ⟨hsteady,hparts⟩ := Datum.steady_record hsteady
    by_cases hint : k = .int
    · exact hg.resettles_number hint hsteady
    have hih : ∀ {word d}, lookupLast word fields = some d →
        (Resettles d ∧ ∀ ds, d = .list ds → ∀ e ∈ ds, Resettles e) ∧ d.steady = true :=
      fun hd => ⟨ih hd,hparts _ _ hd⟩
    have hkind := kindOf_of_named (hg.settled_named hint) hg.known
    rw [settled_record hg.kindOf hint]
    refine ⟨?_,k,_,rfl,hg.settled_named hint,hg.known,fun slot hslot => ?_,fun h => absurd h hint⟩
    · rw [settled_record hkind hint]
      refine congrArg Datum.record (List.map_congr_left (fun f hf => congrArg (f.word,·) ?_))
      rcases mem_kindFields hf with rfl | ⟨form,shown,hslot⟩
      · rw [part_type (hg.settled_named hint),part_type hg.named]
      · exact (hg.settled_slot hint hsteady hih hslot).1
    · cases slot with
      | constant text shown => trivial
      | field form f shown => exact (hg.settled_slot hint hsteady hih hslot).2

end Again

section Copies
variable {p : Parser} {d : Datum} {parent : Value} {place : Option Attr} {s t : Store} {n : NodeId}

/-- A node that was built is written back as its settled datum, in the store after it and in every store that grew from
that one. -/
theorem snapshot_of_build {u : Store} (h : build d parent place p s = .ok n t) (hgrows : t.Grows u) :
    snapshot (.node n) u = .ok (settled d) := by
  have hkept : Kept (build d parent place) p s.mark t.mark n u := (Kept.of_run h).agree (hgrows.agree _)
  refine snapshot_built d hkept ?_
  have hle := hgrows.mark.1
  unfold Store.depth
  simp only [Store.mark] at hle ⊢
  omega

theorem settled_kind {fields fields' : List (String × Datum)} {k : Kind} {c : NodeCell}
    (hg : Grown p t a b n parent place fields k c) (h : settled (.record fields) = .record fields') :
    kindOf fields' = some k := by
  by_cases hint : k = .int
  · subst hint
    simp only [settled,settledRecord,hg.kindOf] at h
    cases h
    exact kindOf_of_named (numberFields_type _) hg.known
  · rw [settled_record hg.kindOf hint] at h
    cases h
    exact kindOf_of_named (hg.settled_named hint) hg.known

/-- Copying a node that was built goes well. The copy is new and held by nothing, it is of the same kind, both are written
as the same data, and so they have the same text. Nothing else is changed. The copy is of the same class if and only if there
is a class for the kind. -/
theorem copy_written_same (h : build d parent place p s = .ok n t) (hsteady : d.steady = true) :
    ∃ m u c c', call (.node n) "copy" (.ofList []) p t = .ok (.node m) u ∧ t.Grows u ∧ m.index = t.nodes.size ∧
      u.nodes[n.index]? = some c ∧ u.nodes[m.index]? = some c' ∧ c'.kind = c.kind ∧
      (c'.classAs m = c.classAs n ↔ c.kind.hasClass = true) ∧ c'.parent = .none ∧ c'.place = none ∧
      snapshot (.node n) t = .ok (settled d) ∧ snapshot (.node m) u = snapshot (.node n) t ∧
      textOf (.node m) u = textOf (.node n) t := by
  obtain ⟨hagain,hbuilds⟩ := (resettles_built d).builds (Kept.of_run h) hsteady
  obtain ⟨m,u,hcopy⟩ := hbuilds .none none t
  obtain ⟨fields,k,c,rfl,hg⟩ := (Kept.of_run h).grown
  obtain ⟨fields',k',c',hfields,hg'⟩ := (Kept.of_run hcopy).grown
  have hgrows := (build_adds _ _ _).grows hcopy
  have hn := snapshot_of_build h (.refl t)
  have hm : snapshot (.node m) u = .ok (settled (.record fields)) := (snapshot_of_build hcopy (.refl u)).trans (congrArg _ hagain)
  have hkind : k' = k := by
    have hsame : kindOf fields' = some k := settled_kind hg hfields
    exact Option.some.inj (hg'.kindOf.symm.trans hsame)
  have hsame : c'.kind = c.kind := hg'.kind.trans (hkind.trans hg.kind.symm)
  have hne : m ≠ n := by
    rintro rfl
    exact Nat.ne_of_lt (Store.lt_nodes_of_get hg.cell) hg'.first
  refine ⟨m,u,c,c',?_,hgrows,hg'.first,(hgrows.nodes _ (Store.lt_nodes_of_get hg.cell)).trans hg.cell,hg'.cell,
    hsame,?_,hg'.parent,hg'.place,hn,hm.trans hn.symm,?_⟩
  · rw [call_node (by decide) hg.cell rfl]
    have hrun : copyNode (.node n) p t = .ok m u := (Edit.read_known hn).trans hcopy
    exact Edit.bind_ok.mpr ⟨_,_,rfl,Edit.bind_ok.mpr ⟨_,_,hrun,rfl⟩⟩
  · -- Neither node took over a class, so without one for the kind each has its own.
    simp only [NodeCell.classAs,hsame,hg.origin,hg'.origin,Option.getD_none]
    cases c.kind.hasClass <;> simp [hne]
  · unfold textOf
    rw [Read.bind_known hm,Read.bind_known hn]
    rfl

/-- A name with an alias: blanks that are set anew, a key that no layout has, and an empty list given as text. -/
def looseAlias : Datum := .record [("type",.text "dotted_as_name"),
  ("value",.list [.record [("type",.text "int"),("value",.text " 0_7 ")]]),
  ("first_formatting",.list [.record [("type",.text "space"),("value",.text "  ")]]),
  ("second_formatting",.text ""),("target",.text "b"),("section",.null)]

theorem copy_written_same_alias : ∃ n t m u, build looseAlias .none none (fun _ => .ok .null) .empty = .ok n t ∧
    call (.node n) "copy" (.ofList []) (fun _ => .ok .null) t = .ok (.node m) u ∧
    snapshot (.node n) t = .ok (settled looseAlias) ∧ snapshot (.node m) u = .ok (settled looseAlias) ∧
    textOf (.node m) u = .ok "7 as b" := by
  have hsucceeds : (build looseAlias .none none).succeeds (fun _ => .ok .null) .empty = true := by decide +kernel
  have hrender : (settled looseAlias).render = .ok "7 as b" := by decide +kernel
  obtain ⟨n,t,hbuild⟩ := Edit.succeeds_iff.mp hsucceeds
  obtain ⟨m,u,_,_,hcopy,-,-,-,-,-,-,-,-,hn,hm,-⟩ := copy_written_same hbuild (by decide +kernel)
  exact ⟨n,t,m,u,hbuild,hcopy,hn,hm.trans hn,(textOf_ok (hm.trans hn)).mpr hrender⟩

end Copies

end CodeTree
