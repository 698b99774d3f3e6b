import CodeTree.Proofs.Preparing

/-! # A child by text, by data or by node

A child of a node can be given as a text, as the data that the parser finds for that text, or as a node that was built from
these data. All three put the same child in its place. Only the text also sets the spacing around it; so the document is
written the same in all three ways where that spacing is already there, or where there is none to set.
-/
namespace CodeTree
variable {p : Parser} {s t u : Store} {n : NodeId} {k : Kind} {c : NodeCell} {f : Field} {F : Nat} {shown : Shown}
  {part : Field → Datum} {parent : Value} {place : Option Attr} {text word : String} {v : Value} {m : Datum} {d e : Datum}
  {sets : List (Field × Datum)} {G : Nat}

section Texts

/-- How the text of a child is parsed: at its place, or for its first node. -/
def Kind.textContext (k : Kind) (f : Field) : Context := (k.childContext f).getD ⟨"","",[.index 0]⟩

/-- What a parser finds for a text. -/
def Context.Finds (ctx : Context) (p : Parser) (text : String) (d : Datum) : Prop :=
  ∃ answer, p (ctx.before ++ text ++ ctx.after) = .ok answer ∧ answer.follow ctx.keys = .ok d

theorem Context.parse_ok {ctx : Context} : ctx.parse text p s = .ok d u ↔ ctx.Finds p text d ∧ s = u := by
  simp only [Context.parse,parseWithin,Edit.bind_ok,Edit.parse_ok,Edit.lift_ok,Context.Finds]
  constructor
  · rintro ⟨answer,_,⟨hparse,rfl⟩,hfollow,rfl⟩
    exact ⟨⟨answer,hparse,hfollow⟩,rfl⟩
  · rintro ⟨⟨answer,hparse,hfollow⟩,rfl⟩
    exact ⟨answer,s,⟨hparse,rfl⟩,hfollow,rfl⟩

/-- What the layouts keep to where they have a child. -/
def Slot.takesChild (k : Kind) : Slot → Bool
  | .field .child f _ => (k != .getitem || (k.childContext f).isSome) && k != .int &&
      ((k.childContext f).isSome || (k.preparations f true).isEmpty && (k.preparations f false).isEmpty)
  | _ => true

theorem layout_takesChild (k : Kind) : ∀ slot ∈ k.layout, slot.takesChild k = true := by
  cases k <;> decide

/-- A text is turned into a child: what the place needs is set, then the text is parsed. -/
theorem childOfText_run (hc : s.nodes[n.index]? = some c) (hslot : .field .child f shown ∈ c.kind.layout)
    (hreworks : c.kind.reworks f = false) :
    childOfText n text parent (some (.field f)) p s = (match c.kind.childContext f with
      | some ctx => do
        prepareChild n c.kind f (text != "")
        match (if text == "" then c.kind.emptyChild f else none) with
        | some v => return v
        | none => return .node (← build (← ctx.parse text) parent (some (.field f)))
      | none =>
        if c.kind.childrenByContext then throw (.refused .unhandled) else firstOf text parent (some (.field f)) : Edit Value) p s := by
  have htakes := layout_takesChild c.kind _ hslot
  simp only [Slot.takesChild,Bool.and_eq_true,Bool.or_eq_true,bne_iff_ne] at htakes
  have hreworked : ∀ {k' g}, c.kind = k' → some (Attr.field f) = some (.field g) → k'.reworks g = true → False := by
    rintro _ _ rfl hg h
    cases hg
    rw [hreworks] at h
    cases h
  unfold childOfText
  rw [Edit.node_known hc]
  refine congrArg (fun e : Edit Value => e p s) ?_
  split
  case h_1 | h_2 | h_3 | h_4 | h_5 =>
    next hk hf => exact (hreworked hk hf rfl).elim
  · next hf _ _ _ _ _ =>
    cases hf
    cases hctx : c.kind.childContext f with
    | some ctx => rfl
    | none =>
      have hgetitem : (c.kind == .getitem) = false := by simpa [hctx] using htakes.1.1
      simp only [hgetitem,Bool.false_eq_true,if_false]
  · next hno _ _ _ _ _ => exact absurd rfl (hno f)

theorem parsed_ends (ctx : Context) : (do return .node (← build (← ctx.parse text) parent place) : Edit Value).Ends p s
    (fun v u => ∃ d x, ctx.Finds p text d ∧ build d parent place p s = .ok x u ∧ v = .node x) (fun u => s.Grows u) := by
  refine .of_run (fun v u h => ?_) (fun fault u h => ?_)
  · obtain ⟨d,_,hparse,h⟩ := Edit.bind_ok.mp h
    obtain ⟨hfinds,rfl⟩ := Context.parse_ok.mp hparse
    obtain ⟨x,_,hbuild,h⟩ := Edit.bind_ok.mp h
    obtain ⟨rfl,rfl⟩ := Edit.pure_ok.mp h
    exact ⟨d,x,hfinds,hbuild,rfl⟩
  · have hadds : Adds (do return .node (← build (← ctx.parse text) parent place) : Edit Value) :=
      .bind (.bind (.parse _) (fun _ => .lift _)) (fun d => .bind (build_adds d _ _) (fun _ => .pure _))
    exact hadds.grows_error h

/-- Whether all that a text for a child needs can be set before it is parsed. -/
def Store.Readies (t : Store) (p : Parser) (n : NodeId) (k : Kind) (form : Form) (f : Field) (v : Value) : Prop :=
  form = .child ∧ k.reworks f = false ∧ ∃ x s, v = .text x ∧ prepareChild n k f (x != "") p t = .ok () s

/-- A text for a child sets the fields that the place needs, and then builds what the parser finds. -/
theorem Refits.childOfText (h : Refits t n k F part s) (hF : 1 ≤ F) (hslot : .field .child f shown ∈ k.layout)
    (hreworks : k.reworks f = false) (text : String) (parent : Value) :
    (childOfText n text parent (some (.field f))).Ends p s
      (fun v u => u.HasKind n k ∧ (text ≠ "" → ∃ s' d x, Refits t n k F (refit part (k.preparations f true)) s' ∧
        (k.textContext f).Finds p text d ∧ build d parent (some (.field f)) p s' = .ok x u ∧ v = .node x))
      (fun u => Leaves t n k F part (k.preparations f (text != "")) u ∧
        (s.Readies p n k .child f (.text text) → Refits t n k F (refit part (k.preparations f (text != ""))) u)) := by
  obtain ⟨c,hc,rfl,-⟩ := h.cell
  unfold Edit.Ends
  rw [childOfText_run hc hslot hreworks]
  have htakes := layout_takesChild c.kind _ hslot
  simp only [Slot.takesChild,Bool.and_eq_true,Bool.or_eq_true,List.isEmpty_iff] at htakes
  have hkind : ∀ {part s u}, Refits t n c.kind F part s → s.Grows u → u.HasKind n c.kind := by
    intro part s u hs hu
    obtain ⟨c',hc',hkind,-⟩ := (hs.grows hu).cell
    exact ⟨c',hc',hkind⟩
  unfold Kind.textContext
  cases hctx : c.kind.childContext f with
  | some ctx =>
    have hprepares := prepareChild_prepares (p := p) (f := f) (by rw [hctx]; rfl) hF (text != "") h
    refine Edit.Ends.bind (.of_run (fun _ s' hrun => ?_) (fun _ u hrun => ⟨hprepares.error hrun,fun hready => ?_⟩))
    on_goal 2 =>
      obtain ⟨-,-,_,_,hx,hok⟩ := hready
      cases hx
      cases hok.symm.trans hrun
    have hs' := hprepares.ok hrun
    split
    · next x hx =>
      refine .pure ⟨hkind hs' (.refl s'),fun htext => ?_⟩
      simp [htext] at hx
    · refine (parsed_ends ctx).imp (fun v u hu => ?_) (fun u hu => ?_)
      · obtain ⟨d,x,hfinds,hbuild,rfl⟩ := hu
        refine ⟨hkind hs' ((build_adds d _ _).grows hbuild),fun htext => ?_⟩
        have hfilled : (text != "") = true := by simpa using htext
        rw [hfilled] at hs'
        exact ⟨s',d,x,hs',hfinds,hbuild,rfl⟩
      · exact ⟨⟨_,List.prefix_rfl,hs'.grows hu⟩,fun _ => hs'.grows hu⟩
  | none =>
    obtain ⟨hfilled,hempty⟩ : c.kind.preparations f true = [] ∧ c.kind.preparations f false = [] := by simpa [hctx] using htakes.2
    have hsets : c.kind.preparations f (text != "") = [] := by cases text != "" <;> assumption
    rw [hfilled,hsets]
    refine Edit.Ends.ite (fun _ => .throw ⟨h.leaves _,fun _ => h⟩) (fun _ => ?_)
    refine (parsed_ends ⟨"","",[.index 0]⟩).imp (fun v u hu => ?_) (fun u hu => ⟨(h.grows hu).leaves _,fun _ => h.grows hu⟩)
    obtain ⟨d,x,hfinds,hbuild,rfl⟩ := hu
    exact ⟨hkind h ((build_adds d _ _).grows hbuild),fun _ => ⟨s,d,x,h,hfinds,hbuild,rfl⟩⟩

end Texts

section Storing

theorem confirm_ends (text type : String) (v : Value) : (do confirm text type; return v : Edit Value).Ends p s
    (fun w u => w = v ∧ u = s) (fun u => u = s) := by
  refine .bind (.bind (.parse (fun d _ => .bind (.lift (fun e _ => .ite (fun _ => ?_) (fun _ => .throw rfl)) rfl)) rfl))
  exact .pure (.pure ⟨rfl,rfl⟩)

theorem prepareStore_child (hslot : .field .child f shown ∈ k.layout) (n : NodeId) (v : Value) :
    (prepareStore n k (.field f) v).Ends p s (fun w u => w = v ∧ u = s) (fun u => u = s ∧ ∀ b, k.preparations f b = []) := by
  by_cases hv : ∃ x, v = .text x
  · obtain ⟨x,rfl⟩ := hv
    have hchecks : (false || !k.checks f || k.confirms f) = true := layout_checksText k _ hslot
    rw [Bool.false_or,Bool.or_eq_true,Bool.not_eq_true'] at hchecks
    rcases hchecks with hchecks | hconfirms
    · rw [prepareStore_unchecked hchecks]
      exact .pure ⟨rfl,rfl⟩
    · unfold Kind.confirms at hconfirms
      split at hconfirms
      case h_5 => cases hconfirms
      all_goals exact (confirm_ends _ _ _).imp (fun _ _ h => h) (fun _ h => ⟨h,fun _ => rfl⟩)
  · rw [prepareStore_held hslot rfl (fun x hx => hv ⟨x,hx⟩)]
    exact .pure ⟨rfl,rfl⟩

/-- A child is converted and stored. -/
theorem assign_child (h : Refits t n k F part s) (hslot : .field .child f shown ∈ k.layout)
    (hword : k.assigned (.ofWord word) = .field f) (hprep : prepareStore n k (.field f) v p s = .ok v s)
    (hkeeps : ∀ r u, childFrom n v (.node n) (some (.field f)) p s = .ok r u → ∃ c, u.nodes[n.index]? = some c ∧ c.kind = k) :
    assign (.node n) word v p s = match childFrom n v (.node n) (some (.field f)) p s with
      | .ok r u => .ok () (u.mapNode n (·.put (.field f) r))
      | .error fault u => .error fault u := by
  have hfiled := layout_filed k _ hslot
  simp only [Slot.filed,Bool.and_eq_true,Bool.or_eq_true,Option.isNone_iff_eq_none] at hfiled
  obtain ⟨⟨-,hlist | hview⟩,-⟩ := hfiled
  · cases hlist
  rw [assign_run h.finished hword,Edit.bind_known hprep,Edit.run_bind,assignConverted_run h.finished hslot,Edit.run_bind]
  dsimp only [Form.convert]
  cases hrun : childFrom n v (.node n) (some (.field f)) p s with
  | error fault u => rfl
  | ok r u =>
    obtain ⟨c,hc,rfl⟩ := hkeeps r u hrun
    exact wrapHeld_plain (Store.mapNode_self hc) hview

end Storing

section Built
variable {x : NodeId} {d : Datum}

theorem build_staysRead (h : build d parent place p s = .ok x u) (hn : n.index < s.nodes.size) :
    u.StaysRead n (u.nodes.size - s.nodes.size) .child (.node x) (settled d) := by
  have hsize : s.nodes.size ≤ u.nodes.size := ((build_adds d _ _).grows h).mark.1
  refine .inr ⟨x,rfl,fun v fuel hv hfuel => ?_⟩
  have havoids : (Freedom.whole n).Avoids s.mark u.mark := by
    refine ⟨fun {m _} hm _ hF => ?_,fun _ _ h => h⟩
    simp only [Store.mark_nodes] at hm
    cases hF
    omega
  rw [overlooks d (Kept.of_run h) hv havoids]
  exact snapshot_built d (Kept.of_run h) (by simp only [Store.mark_nodes]; omega)

theorem hung_staysRead (h : build d parent place p s = .ok x u) (hn : n.index < s.nodes.size) (holder : Value) (at_ : Option Attr) :
    (u.mapNode x (fun c => { c with parent := holder, place := at_ })).StaysRead n (u.nodes.size - s.nodes.size) .child
      (.node x) (settled d) :=
  (build_staysRead h hn).drifts (u.drifts_hung x holder at_ _)

theorem Refits.put_child (h : Refits t n k (F + 1) part s) (hform : k.formOf f = some .child) (hu : s.Grows u) (hG : 1 ≤ G)
    (hread : u.StaysRead n G .child (.node x) e) :
    Refits t n k (F + G) (exchange part (f,e)) (u.mapNode n (·.put (.field f) (.node x))) :=
  ((h.grows hu).mono (by omega)).put hform (hread.mono (by omega))

theorem build_size (h : build d parent place p s = .ok x u) : s.nodes.size + 1 ≤ u.nodes.size := by
  obtain ⟨fields,k,c,rfl,hg⟩ := (Kept.of_run h).grown
  exact hg.le.1

end Built

section Records
variable {sets : List (Field × Datum)}

/-- The fields of a record with other data for some of them, one after the other. -/
def resetFields (fields : List (String × Datum)) (sets : List (Field × Datum)) : List (String × Datum) :=
  sets.foldl (fun fields x => swapField x.1.word x.2 fields) fields

theorem gathered_refit (k : Kind) (part : Field → Datum) (sets : List (Field × Datum)) :
    .record (gathered k (refit part sets)) = Datum.record (resetFields (gathered k part) sets) := by
  induction sets generalizing part with
  | nil => rfl
  | cons x sets ih =>
    have hswap : gathered k (exchange part x) = swapField x.1.word x.2 (gathered k part) := (swap_gathered k part x.1 x.2).symm
    change Datum.record (gathered k (refit (exchange part x) sets)) = _
    rw [ih,hswap]
    rfl

theorem truth_resetFields (fields : List (String × Datum)) (sets : List (Field × Datum)) :
    (Datum.record (resetFields fields sets)).truth = (Datum.record fields).truth := by
  induction sets generalizing fields with
  | nil => rfl
  | cons x sets ih =>
    refine (ih _).trans ?_
    cases fields <;> rfl

variable {g : Field} {e : Datum}

theorem refit_eq (h : part g = e ∨ (g,e) ∈ sets) (hone : ∀ e', (g,e') ∈ sets → e' = e) : refit part sets g = e := by
  induction sets generalizing part with
  | nil => simpa [refit] using h
  | cons x sets ih =>
    refine ih ?_ (fun e' he' => hone e' (List.mem_cons_of_mem _ he'))
    unfold exchange
    by_cases hg : g = x.1
    · left
      rw [if_pos hg]
      exact hone x.2 (by rw [hg]; exact List.mem_cons_self)
    · rw [if_neg hg]
      exact h.imp id (fun hmem => (List.mem_cons.mp hmem).resolve_left (fun hx => hg (congrArg Prod.fst hx)))

/-- The fields that are set are fields of the node other than the one that the text is for, and each is set to one datum. -/
theorem preparations_fields (h : (g,e) ∈ k.preparations f true) : g ≠ f ∧ (k.formOf g).isSome = true ∧
    ∀ e', (g,e') ∈ k.preparations f true → e' = e := by
  unfold Kind.preparations at h ⊢
  split at h
  all_goals
    try simp only [if_true] at h ⊢
    repeat' rcases List.mem_cons.mp h with h | h
  all_goals
    cases h
  all_goals exact ⟨by decide,by decide,by simp⟩

theorem reset_preparations (k : Kind) (part : Field → Datum) (f : Field) (d : Datum) :
    resetFields (gathered k part) (k.preparations f true ++ [(f,d)]) = resetFields (gathered k part) [(f,d)] ↔
      ∀ g e, (g,e) ∈ k.preparations f true → lookupLast g.word (gathered k part) = some e := by
  have hlookup : ∀ {g e}, (g,e) ∈ k.preparations f true → ∀ part : Field → Datum, lookupLast g.word (gathered k part) = some (part g) := by
    intro g e h part
    obtain ⟨form,hform⟩ := Option.isSome_iff_exists.mp (preparations_fields h).2.1
    rcases Kind.formOf_cases hform with ⟨rfl,-⟩ | ⟨shown,hslot⟩
    · exact lookup_gathered (List.mem_append_left _ (List.mem_append_left _ (mem_foldl_add.mpr (.inl List.mem_cons_self))))
    · exact lookup_gathered (slot_field_mem hslot)
  rw [← Datum.record.injEq,← gathered_refit,← gathered_refit,Datum.record.injEq,refit_append]
  constructor
  · intro hsame g e h
    obtain ⟨hne,-,hone⟩ := preparations_fields h
    have hfit : refit part (k.preparations f true) g = e := refit_eq (.inr h) hone
    have hlook := (congrArg (lookupLast g.word) hsame).symm
    rw [hlookup h,hlookup h] at hlook
    simp only [refit,List.foldl_cons,List.foldl_nil,exchange,if_neg hne] at hlook
    rw [hlookup h,hlook]
    exact congrArg some hfit
  · intro hall
    have hfit : refit part (k.preparations f true) = part := by
      funext g
      refine refit_eq (.inl rfl) (fun e he => ?_)
      have hg := hall g e he
      rw [hlookup he] at hg
      exact (Option.some.inj hg).symm
    rw [hfit]

theorem Datum.follow_graft {keys : List Key} (hkeys : ∀ i, .index i ∈ keys → 0 ≤ i) (h : d.follow keys = .ok e) (e' : Datum) :
    (d.graft keys e').follow keys = .ok e' := by
  induction keys generalizing d with
  | nil => rfl
  | cons key keys ih =>
    have hrest : ∀ i, .index i ∈ keys → 0 ≤ i := fun i hi => hkeys i (List.mem_cons_of_mem _ hi)
    rw [Datum.follow] at h
    cases hstep : d.step key with
    | error fault =>
      rw [hstep] at h
      cases h
    | ok part =>
      rw [hstep] at h
      have hbelow := ih hrest h
      unfold Datum.step at hstep
      split at hstep
      · next items i =>
        obtain ⟨j,rfl⟩ := Int.eq_ofNat_of_zero_le (hkeys i List.mem_cons_self)
        have hj : items[j]? = some part := by
          split at hstep
          · next item hitem =>
            cases hstep
            have hpos : ¬ (j : Int) < 0 := by omega
            simp only [indexIn?,hpos,if_false] at hitem
            split at hitem
            · simpa using hitem
            · cases hitem
          · cases hstep
        have hlt := (List.getElem?_eq_some_iff.mp hj).1
        rw [Datum.graft_item hj,Datum.follow,Datum.step_index (List.getElem?_set_self hlt)]
        exact hbelow
      · next fields name =>
        split at hstep
        · next item hitem =>
          cases hstep
          rw [Datum.graft_field hitem,Datum.follow,Datum.step_name (lookupLast_swap_self hitem)]
          exact hbelow
        · cases hstep
      · cases hstep
      · cases hstep

end Records

section Documents
variable {w : ViewId} {whole : Datum} {keys : List Key} {fields : List (String × Datum)} {x : NodeId} {d : Datum}

theorem child_ne_int (hslot : .field .child f shown ∈ k.layout) : k ≠ .int := by
  have htakes := layout_takesChild k _ hslot
  simp only [Slot.takesChild,Bool.and_eq_true,bne_iff_ne] at htakes
  exact htakes.1.2

theorem Seated.reset (hseat : Seated p w t whole keys n c fields F) (hk : c.kind ≠ .int)
    (h : Refits t n c.kind (F + G) (refit (settledParts c.kind fields) sets) u)
    (hG : t.nodes.size + G ≤ u.nodes.size + 1) :
    snapshot (.view w) u = .ok (whole.graft keys (.record (resetFields (settledFor c.kind fields) sets))) := by
  rw [← gathered_refit]
  exact hseat.exchanged hk h hG

section Children
variable (hseat : Seated p w t whole keys n c fields F) (hslot : .field .child f shown ∈ c.kind.layout)
  (hword : c.kind.assigned (.ofWord word) = .field f)
include hseat hslot hword

omit hword in
theorem Seated.put_child (h : Refits t n c.kind (F + 1) (refit (settledParts c.kind fields) sets) s)
    (hu : s.Grows u) (hG : 1 ≤ G) (hsize : s.nodes.size + G ≤ u.nodes.size) (hread : u.StaysRead n G .child (.node x) e) :
    snapshot (.view w) (u.mapNode n (·.put (.field f) (.node x))) =
      .ok (whole.graft keys (.record (resetFields (settledFor c.kind fields) (sets ++ [(f,e)])))) := by
  have hput := h.put_child (Kind.formOf_slot hslot) hu hG hread
  have hmark := h.off.mark.1
  refine hseat.reset (child_ne_int hslot) (G := G) ?_ ?_
  · rw [refit_append]
    exact hput
  · simp only [Store.mark_nodes] at hmark
    simp only [Store.mapNode_size]
    omega

theorem Seated.child_text (hreworks : c.kind.reworks f = false) (htext : text ≠ "")
    (h : assign (.node n) word (.text text) p t = .ok () u) :
    ∃ d, (c.kind.textContext f).Finds p text d ∧ Builds p d ∧ snapshot (.view w) u =
      .ok (whole.graft keys (.record (resetFields (settledFor c.kind fields) (c.kind.preparations f true ++ [(f,settled d)])))) := by
  have hrefits := (hseat.refits (child_ne_int hslot)).mono (Nat.le_succ F)
  have hends := hrefits.childOfText (p := p) (Nat.succ_le_succ (Nat.zero_le F)) hslot hreworks text (.node n)
  have hprep : prepareStore n c.kind (.field f) (.text text) p t = .ok (.text text) t := by
    replace hrun := (Edit.node_known hseat.planted.choose_spec.choose_spec.choose_spec.choose_spec.cell).symm.trans h
    rw [hword] at hrun
    obtain ⟨v,s,hprep,-⟩ := Edit.bind_ok.mp hrun
    obtain ⟨rfl,rfl⟩ := (prepareStore_child hslot n _).ok hprep
    exact hprep
  have hkeeps : ∀ r u, childFrom n (.text text) (.node n) (some (.field f)) p t = .ok r u →
      ∃ c', u.nodes[n.index]? = some c' ∧ c'.kind = c.kind := by
    intro r u hrun
    exact (hends.ok hrun).1
  rw [assign_child hrefits hslot hword hprep hkeeps] at h
  split at h
  · next r u' hrun =>
    cases h
    obtain ⟨s,d,x,hs,hfinds,hbuild,rfl⟩ := (hends.ok hrun).2 htext
    have hn := Store.lt_nodes_of_get hs.cell.choose_spec.1
    have hsize := build_size hbuild
    refine ⟨d,hfinds,rebuilds d (Kept.of_run hbuild),?_⟩
    exact hseat.put_child hslot hs ((build_adds _ _ _).grows hbuild) (by omega) (by omega) (build_staysRead hbuild hn)
  · cases h

/-- A child that is not given by a text is written in its place if it can be read from then on. -/
theorem Seated.child_given {v : Value} (hs : t.Grows s) (hu : t.Grows u) (hv : ∀ y, v ≠ .text y)
    (hfrom : childFrom n v (.node n) (some (.field f)) p s = .ok (.node x) u) (hsize : t.nodes.size + 1 ≤ u.nodes.size)
    (hread : u.StaysRead n (u.nodes.size - t.nodes.size) .child (.node x) e) : ∃ u', assign (.node n) word v p s = .ok () u' ∧
      snapshot (.view w) u' = .ok (whole.graft keys (.record (resetFields (settledFor c.kind fields) [(f,e)]))) := by
  have hrefits := (hseat.refits (child_ne_int hslot)).mono (Nat.le_succ F)
  refine ⟨_,(assign_child (hrefits.grows hs) hslot hword ?_ ?_).trans (by rw [hfrom]),?_⟩
  · rw [prepareStore_held hslot rfl hv]
    rfl
  · intro r u' hrun
    cases hfrom.symm.trans hrun
    obtain ⟨c',hc',hkind,-⟩ := (hrefits.grows hu).cell
    exact ⟨c',hc',hkind⟩
  · have hnone : Refits t n c.kind (F + 1) (refit (settledParts c.kind fields) []) t := hrefits
    exact hseat.put_child hslot hnone hu (by omega) (by omega) hread

theorem Seated.child_data (hd : Builds p d) : ∃ u, assign (.node n) word (.data d) p t = .ok () u ∧
    snapshot (.view w) u = .ok (whole.graft keys (.record (resetFields (settledFor c.kind fields) [(f,settled d)]))) := by
  obtain ⟨x,u,hbuild⟩ := hd (.node n) (some (.field f)) t
  obtain ⟨fs,-,-,rfl,-⟩ := (Kept.of_run hbuild).grown
  have hn := Store.lt_nodes_of_get (hseat.refits (child_ne_int hslot)).cell.choose_spec.1
  exact hseat.child_given hslot hword (.refl t) ((build_adds _ _ _).grows hbuild) (by simp) (Edit.bind_ok.mpr ⟨x,u,hbuild,rfl⟩)
    (build_size hbuild) (build_staysRead hbuild hn)

theorem Seated.child_node (hbuild : build d .none none p t = .ok x s) : ∃ u, assign (.node n) word (.node x) p s = .ok () u ∧
    snapshot (.view w) u = .ok (whole.graft keys (.record (resetFields (settledFor c.kind fields) [(f,settled d)]))) := by
  have hn := Store.lt_nodes_of_get (hseat.refits (child_ne_int hslot)).cell.choose_spec.1
  have hindex : x.index = t.nodes.size := (Kept.of_run hbuild).index
  have hgrows : t.Grows s := (build_adds _ _ _).grows hbuild
  have hhung := hgrows.trans_off (s.growsOff_mapNode x (fun c => { c with parent := .node n, place := some (.field f) })) (by omega)
  refine hseat.child_given hslot hword hgrows hhung (by simp) rfl ?_ ?_
  · rw [Store.mapNode_size]
    exact build_size hbuild
  · rw [Store.mapNode_size]
    exact hung_staysRead hbuild hn _ _

end Children

theorem Store.Reaches.nonneg {root : ListId} (h : t.Reaches root keys v) : ∀ i, .index i ∈ keys → 0 ≤ i := by
  induction h with
  | root => simp
  | item above cell member ih =>
    intro i hi
    rcases List.mem_append.mp hi with hi | hi
    · exact ih i hi
    · simp only [List.mem_singleton,Key.index.injEq] at hi
      omega
  | child above cell layout slot held ih =>
    intro i hi
    exact ih i ((List.mem_append.mp hi).resolve_right (by simp))
  | list above cell layout slot stored behind behindCell nodes ih =>
    intro i hi
    exact ih i ((List.mem_append.mp hi).resolve_right (by simp))

theorem textOf_congr {x : Value} (h : snapshot x s = snapshot x u) : textOf x s = textOf x u := by
  have hbind : ∀ t : Store, textOf x t = (snapshot x t).bind (fun d => d.render) := fun _ => rfl
  rw [hbind,hbind,h]

/-- A child by text, by data or by node. In a new document a child of any node can be given by data and by a node built from
them, and the document is then written with the child in its place and all else as it was. If it can be given by a text, it
can be given by what the parser finds for that text. The text sets the spacing around the child as well, and then the document
is written the same if and only if the spacing was there already. Texts that are worked into other nodes are left out. -/
theorem assign_child_forms {source : String} (h : newDocument source p s = .ok (.view w) t) :
    ∃ root whole, behind (.view w) t = .ok (.list root) ∧ snapshot (.view w) t = .ok whole ∧
      ∀ keys n c f shown word, t.Reaches root keys (.node n) → t.nodes[n.index]? = some c →
        .field .child f shown ∈ c.kind.layout → c.kind.assigned (.ofWord word) = .field f →
        ∃ fields, whole.follow keys = .ok (.record fields) ∧
          (∀ d x t', build d .none none p t = .ok x t' → ∃ u u', assign (.node n) word (.data d) p t = .ok () u ∧
            assign (.node n) word (.node x) p t' = .ok () u' ∧ snapshot (.view w) u' = snapshot (.view w) u ∧
            snapshot (.view w) u = .ok (whole.graft keys (.record (resetFields fields [(f,settled d)])))) ∧
          ∀ text u, text ≠ "" → c.kind.reworks f = false → assign (.node n) word (.text text) p t = .ok () u →
            ∃ d x t' u', (c.kind.textContext f).Finds p text d ∧ build d .none none p t = .ok x t' ∧
              assign (.node n) word (.data d) p t = .ok () u' ∧
              snapshot (.view w) u =
                .ok (whole.graft keys (.record (resetFields fields (c.kind.preparations f true ++ [(f,settled d)])))) ∧
              (snapshot (.view w) u = snapshot (.view w) u' ↔
                ∀ g e, (g,e) ∈ c.kind.preparations f true → lookupLast g.word fields = some e) ∧
              ((∀ g e, (g,e) ∈ c.kind.preparations f true → lookupLast g.word fields = some e) →
                textOf (.view w) u = textOf (.view w) u') ∧
              ∀ old a b, whole.Part keys (.record fields) → textOf (.view w) t = .ok old →
                (Datum.record (resetFields fields (c.kind.preparations f true ++ [(f,settled d)]))).render = .ok a →
                (Datum.record (resetFields fields [(f,settled d)])).render = .ok b →
                (textOf (.view w) u = textOf (.view w) u' ↔ a = b) := by
  obtain ⟨root,whole,hbehind,hwhole,-,hseats⟩ := newDocument_seated h
  refine ⟨root,whole,hbehind,hwhole,fun keys n c f shown word hreach hc hslot hword => ?_⟩
  obtain ⟨fields,F,hseat⟩ := hseats keys n c hreach hc
  obtain ⟨_,_,_,_,hplanted⟩ := hseat.planted
  have hfollow : whole.follow keys = .ok (.record (settledFor c.kind fields)) := by
    rw [hseat.follow,settled_record hplanted.kindOf (child_ne_int hslot)]
  refine ⟨settledFor c.kind fields,hfollow,fun d x t' hbuild => ?_,fun text u htext hreworks hassign => ?_⟩
  · obtain ⟨u,hdata,hu⟩ := hseat.child_data hslot hword (rebuilds d (Kept.of_run hbuild))
    obtain ⟨u',hnode,hu'⟩ := hseat.child_node hslot hword hbuild
    exact ⟨u,u',hdata,hnode,hu'.trans hu.symm,hu⟩
  · obtain ⟨d,hfinds,hbuilds,hu⟩ := hseat.child_text hslot hword hreworks htext hassign
    obtain ⟨u',hdata,hu'⟩ := hseat.child_data hslot hword hbuilds
    obtain ⟨x,t',hbuild⟩ := hbuilds .none none t
    have hsame : snapshot (.view w) u = snapshot (.view w) u' ↔
        ∀ g e, (g,e) ∈ c.kind.preparations f true → lookupLast g.word (settledFor c.kind fields) = some e := by
      rw [hu,hu',← reset_preparations c.kind _ f (settled d)]
      constructor
      · intro hsame
        have hgraft := congrArg (Datum.follow · keys) (Except.ok.inj hsame)
        simp only [Datum.follow_graft hreach.nonneg hfollow,Except.ok.injEq,Datum.record.injEq] at hgraft
        exact hgraft
      · intro hsame
        rw [hsame]
    refine ⟨d,x,t',u',hfinds,hbuild,hdata,hu,hsame,fun hall => textOf_congr (hsame.mpr hall),?_⟩
    · intro old a b hpart hold ha hb
      obtain ⟨before,_,after,-,-,hsurrounds⟩ := hpart.render_graft ((textOf_ok hwhole).mp hold)
      rw [(textOf_ok hu).mpr (hsurrounds _ a (truth_resetFields _ _) ha),
        (textOf_ok hu').mpr (hsurrounds _ b (truth_resetFields _ _) hb)]
      simp

/-- A statement that returns something, or nothing, as plain data. -/
def returnDatum (spaces : List Datum) (value : Datum) : Datum :=
  .record [("type",.text "return"),("formatting",.list spaces),("value",value)]

/-- A parser that takes one text for a statement that returns a name, and all others for one that returns nothing. -/
def returnParser : Parser := fun text =>
  .ok (.list (if text = "return a" then [returnDatum [spaceDatum] (nameDatum "a")] else [returnDatum [] .null,lineEnd ""]))

/-- The text of a returned value comes with a space before it, its data do not. -/
theorem assign_child_forms_return : ∃ w t root n u u', newDocument "return\n" returnParser .empty = .ok (.view w) t ∧
    behind (.view w) t = .ok (.list root) ∧ t.Reaches root [.index 0] (.node n) ∧
    assign (.node n) "value" (.text "a") returnParser t = .ok () u ∧
    assign (.node n) "value" (.data (nameDatum "a")) returnParser t = .ok () u' ∧
    textOf (.view w) u = .ok "return a\n" ∧ textOf (.view w) u' = .ok "returna\n" := by
  obtain ⟨w,t,root,n,c,h,hbehind,hreach,hc,hkind,hone⟩ := newDocument_tested "return\n" returnParser .returnStmt
    (fun _ t n => (assign (.node n) "value" (.text "a")).succeeds returnParser t) (by decide +kernel) rfl (by decide +kernel)
  obtain ⟨_,u,hassign⟩ := Edit.succeeds_iff.mp hone
  obtain ⟨d,ds,_,hd,hds,-,-,hwhole⟩ := newDocument_written h
  have hparse : ∀ text, text ≠ "return a" → returnParser text = .ok (.list [returnDatum [] .null,lineEnd ""]) := by
    intro text htext
    unfold returnParser
    rw [if_neg htext]
  obtain rfl : ds = [returnDatum [] .null,lineEnd ""] := by
    cases (hparse _ (by decide)).symm.trans hd
    rcases hds with hds | ⟨-,hds | hds⟩ <;> cases hds
    rfl
  obtain ⟨root',whole,hbehind',hwhole',hforms⟩ := assign_child_forms h
  cases hbehind.symm.trans hbehind'
  cases hwhole.symm.trans hwhole'
  obtain ⟨fields,hfollow,hbuilt,htext⟩ := hforms [.index 0] n c .value (.whenSet [.value]) "value" hreach hc (by rw [hkind]; decide)
    (by rw [hkind]; decide +kernel)
  obtain ⟨d,x,t',u',⟨answer,hanswer,hfinds⟩,hbuild,hdata,hu,-⟩ := htext "a" u (by decide) (by rw [hkind]; rfl) hassign
  obtain ⟨u'',_,hdata',-,-,hu'⟩ := hbuilt d x t' hbuild
  cases hdata.symm.trans hdata'
  rw [hkind] at hu hanswer hfinds
  obtain rfl : d = nameDatum "a" := by
    unfold returnParser at hanswer
    rw [if_pos (by decide +kernel)] at hanswer
    cases hanswer
    exact (Except.ok.inj hfinds).symm
  have hfields : fields = [("type",.text "return"),("formatting",.list []),("value",.record [])] := by
    have hsettled : settled (returnDatum [] .null) = .record [("type",.text "return"),("formatting",.list []),("value",.record [])] := rfl
    exact Datum.record.inj ((Except.ok.inj hfollow).symm.trans hsettled)
  subst hfields
  refine ⟨w,t,root,n,u,u',h,hbehind,hreach,hassign,hdata,(textOf_ok hu).mpr ?_,(textOf_ok hu').mpr ?_⟩
  · decide +kernel
  · decide +kernel

end Documents

end CodeTree
