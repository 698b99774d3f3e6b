import CodeTree.Proofs.CommaRuns
import CodeTree.Proofs.DotRuns

/-! # Mending a list

Putting other items in the place of some mends the list behind a view, whatever the list held before: taking
away leaves a beginning of what is expected, and adding completes it.
-/
namespace CodeTree
variable {F : Freedom} {K : Store → Prop} {p : Parser} {s t u : Store} {w : ViewId} {l : ListId} {n : NodeId} {f : Field}
  {k : Kind} {form : ViewForm} {v x : Value} {D D' L : List Value} {b : Bool} {vs E : List Value} {style : Option Value}
  {word : String} {c : ViewCell}

/-- A value that is no node, or a node of the store. -/
def Store.Knows (s : Store) (v : Value) : Prop := ∀ m, v = .node m → ∃ c, s.nodes[m.index]? = some c

theorem stable_knows (v : Value) : Stable F (fun s => s.Knows v) := by
  intro s t hs hF m hm
  obtain ⟨c,hc⟩ := hs m hm
  obtain ⟨d,hd,-⟩ := hF.node hc
  exact ⟨d,hd⟩

theorem Store.Item.back (h : t.Item word v) (hF : s.Frame F t) (ht : F.KeepsTypes) (hknown : s.Knows v) :
    s.Item word v := by
  obtain ⟨k,type,⟨m,d,rfl,hd,hk,htype⟩,hne⟩ := h
  obtain ⟨c,hc⟩ := hknown m rfl
  obtain ⟨d',hd',hkeeps⟩ := hF.node hc
  cases hd.symm.trans hd'
  refine ⟨k,type,⟨m,c,rfl,hc,hkeeps.kind.symm.trans hk,?_⟩,hne⟩
  rw [← hkeeps.stored _ (ht m)]
  exact htype

theorem significant_knows {xs : List Value} (h : significant v s = .ok xs) : ∀ x ∈ xs, s.Knows x := by
  have hin : ∀ y, significantIn y s = .ok xs → ∀ x ∈ xs, s.Knows x := by
    intro y hy x hx m hm
    subst hm
    cases y with
    | list l =>
      simp only [significantIn,Read.bind_ok] at hy
      obtain ⟨c,-,hy⟩ := hy
      split at hy
      · have hsep := (withoutSeparators_mem hy _ hx).2
        simp only [separates,Read.bind_ok,Read.node_ok] at hsep
        obtain ⟨c,hc,-⟩ := hsep
        exact ⟨c,hc⟩
      · exact absurd hy Read.throw_ok
    | _ => exact absurd hy Read.throw_ok
  unfold significant at h
  obtain ⟨y,-,h⟩ := Read.bind_ok.mp h
  split at h
  · obtain ⟨held,-,h⟩ := Read.bind_ok.mp h
    split at h
    · obtain ⟨y,-,h⟩ := Read.bind_ok.mp h
      exact hin y h
    · exact absurd h Read.throw_ok
  · exact hin _ h

/-! ## Values that can be given -/

/-- What a list of nodes or a view among the given values holds are nodes. -/
def Store.Givable (s : Store) : Value → Prop
  | .list l => ∃ c, s.lists[l.index]? = some c ∧ (c.flavour = .nodes → ∀ x ∈ c.items, x.movable = true)
  | .view w => ∃ c, s.views[w.index]? = some c ∧ ∀ x ∈ c.items, x.movable = true
  | _ => True

theorem stable_givable (hl : ∀ l, ¬ F.list l) (hw : ∀ w, ¬ F.view w) (v : Value) : Stable F (fun s => s.Givable v) := by
  intro s t hs hF
  cases v with
  | list l =>
    obtain ⟨c,hc,hitems⟩ := hs
    obtain ⟨d,hd,hkeeps⟩ := hF.list hc
    refine ⟨d,hd,fun hflavour => ?_⟩
    rw [hkeeps.items (hl l)]
    exact hitems (hkeeps.flavour.symm.trans hflavour)
  | view w =>
    obtain ⟨c,hc,hitems⟩ := hs
    obtain ⟨d,hd,hkeeps⟩ := hF.view hc
    refine ⟨d,hd,?_⟩
    rw [hkeeps.items (hw w)]
    exact hitems
  | _ => trivial

theorem Store.Givable.serves (h : s.Givable v) : s.Serves (fun _ _ => True) (fun _ _ => True) v := by
  cases v with
  | view w => exact ⟨trivial,h⟩
  | list l =>
    obtain ⟨c,hc,hmovable⟩ := h
    exact ⟨c,hc,fun hf => ⟨trivial,hmovable hf⟩,fun _ _ _ _ _ => trivial⟩
  | _ => trivial

section Items
variable (hK : Stable .attributes K)
include hK

theorem itemFrom_commas_keeps (hheld : ∀ s, K s → Held s w l n f k .comma) (hthrough : k.viewForm f = some .comma)
    (hv : ∀ s, K s → s.Givable v) : Gives .attributes K (fun x s => s.Knows x) (itemFrom w v) := by
  have hkind : ∀ s, K s → s.HasKind n k := fun s hs => (hheld s hs).kind
  obtain ⟨hctx,hgetitem,hplain⟩ := commaPlaces_plain _ (mem_commaPlaces hthrough)
  have htext : ∀ text, Gives .attributes K (fun _ _ => True) (childOfText n text (.list l) (some (.field f))) :=
    fun text => (childOfText_gives hK separating_comma hkind hctx hgetitem hplain text).weaken (fun _ _ _ _ => trivial)
  have hlist : ∀ text, Gives .attributes K (fun _ _ => True) (listOfText n text (.list l) (some (.field f))) := by
    exact listOfText_gives hK hkind (fun _ _ _ _ _ _ => trivial) (fun _ _ _ => trivial) hthrough
      (fun g hg h => hg (Attr.field.inj h))
  unfold itemFrom
  refine .ask (fun s c hs hc => ?_)
  obtain ⟨hform,htarget,hplace⟩ := (hheld s hs).seen hc
  rw [hform,htarget,hplace]
  refine .ask (fun s holder hs hholder => ?_)
  obtain rfl := (hheld s hs).holder_eq htarget hholder
  have hfrom := listFrom_gives (Q := fun _ _ => True) hK (fun _ _ _ h _ => h) (fun _ h => h) (fun _ _ _ _ _ _ => trivial)
    (fun _ _ _ _ _ => trivial) htext hlist (fun s hs => (hv s hs).serves)
  refine .bind hfrom (fun _ => ?_)
  refine .learn (R := fun xs s => ∀ x ∈ xs, s.Knows x) (fun xs s _ hxs => significant_knows hxs) (fun xs => ?_)
  cases xs with
  | nil => exact .throw _
  | cons x xs => exact .pure (fun s hs => hs.2 x List.mem_cons_self)

end Items

/-- What is no text does not become an item behind dots. -/
theorem itemFrom_dots (hK : Stable F K) (hheld : ∀ s, K s → Held s w l n f k .dotted) (hthrough : k.viewForm f = some .dotted) :
    Gives F K (fun x s => s.Item "dot" x) (itemFrom w v) := by
  by_cases hv : ∃ text, v = .text text
  · obtain ⟨text,rfl⟩ := hv
    exact itemFrom_dotted hK hheld hthrough text
  · unfold itemFrom
    refine .ask (fun s c hs hc => ?_)
    obtain ⟨hform,-⟩ := (hheld s hs).seen hc
    rw [hform]
    have hstop : ∀ {α β : Type} {fault : Fault} (e : α → Edit β) (mid : β → Store → Prop),
        Gives F K mid (throw fault >>= e) := fun e mid p s _ => Store.Frame.refl _ s
    cases v with
    | text text => exact absurd ⟨text,rfl⟩ hv
    | node m | list l | view w => exact .ask (fun _ _ _ _ => hstop _ _)
    | _ => exact hstop _ _

/-- The forms of view whose lists are mended. -/
def ViewForm.mends : ViewForm → Bool
  | .comma | .dotted => true
  | _ => false

theorem ViewForm.mends_plain (form : ViewForm) (h : form.mends = true) : form ≠ .document ∧ form ≠ .decorators := by
  cases form <;> simp_all [mends]

theorem itemsFromEach_held (hheld : Held s w l n f k form) (hform : form.mends = true) (hvs : ∀ v ∈ vs, s.Givable v) :
    (itemsFromEach w vs).Meets (fun s' => s' = s) (Store.Frame .attributes) (fun xs t => ∀ x ∈ xs, t.Knows x) := by
  have hK : Stable .attributes (fun s => Held s w l n f k form ∧ ∀ v ∈ vs, s.Givable v) :=
    stable_held.and (fun s t hs hF v hv => stable_givable (fun _ h => h) (fun _ h => h) v s t (hs v hv) hF)
  have hgives : Gives .attributes (fun s => Held s w l n f k form ∧ ∀ v ∈ vs, s.Givable v)
      (fun xs s => ∀ x ∈ xs, s.Knows x) (itemsFromEach w vs) := by
    refine itemsFromEach_each stable_knows (fun v hv => ?_)
    cases form with
    | comma => exact itemFrom_commas_keeps hK (fun s hs => hs.1) hheld.through (fun s hs => hs.2 v hv)
    | dotted =>
      refine (itemFrom_dots hK (fun s hs => hs.1) hheld.through).weaken ?_
      rintro x s - ⟨_,_,⟨m,c,rfl,hc,-⟩,-⟩ m' hm
      cases hm
      exact ⟨c,hc⟩
    | _ => cases hform
  refine Edit.Meets.weaken hgives ?_ (fun xs t ht => ht.2)
  rintro s' rfl
  exact ⟨hheld,hvs⟩

/-! ## What is expected -/

/-- What a view expects in the list behind it, with `none` for a separator. -/
def Store.expectedKeys (s : Store) (form : ViewForm) (style : Option Value) (D : List Value) : List (Option Value) :=
  match form with
  | .dotted => chained s.joins D
  | _ => spread (styleIs style "flat") D

/-- A view that shows no separators. -/
structure Showing (w : ViewId) (l : ListId) (n : NodeId) (f : Field) (k : Kind) (form : ViewForm) (style : Option Value)
    (D : List Value) (s : Store) : Prop where
  held : Held s w l n f k form
  shown : s.ShowsIn w style D
  items : ∀ x ∈ D, s.Item form.separator x

section Passes
variable {style : Option Value} {settled : List Value}

theorem Showing.frame (h : Showing w l n f k form style D s) (hF : s.Frame .attributes t) :
    Showing w l n f k form style D t :=
  ⟨stable_held _ _ h.held hF,stable_showsIn (F := .attributes) id style D _ _ h.shown hF,
    fun x hx => (h.items x hx).frame hF Freedom.type_kept⟩

theorem Showing.expectedKeys_frame (h : Showing w l n f k form style D s) (hF : s.Frame F t)
    (ht : F.KeepsTypes) : t.expectedKeys form style D = s.expectedKeys form style D := by
  cases form with
  | dotted => exact chained_congr (fun x hx => Store.joins_frame (h.items x hx).typed hF ht)
  | _ => rfl

/-- What is expected has the keys of the items and of the separators that belong between them. -/
theorem Showing.expected (h : Showing w l n f k form style D s) (hform : form.mends = true)
    (hE : expectedItems w p s = .ok E t) : s.Frame .attributes t ∧ (∀ e ∈ E, t.Typed e) ∧
      ∀ {u}, t.Frame (.editing w l) u → E.map (sepKey form.separator u) = u.expectedKeys form style D := by
  have htype := Freedom.editing_type w l
  cases form with
  | comma =>
    obtain ⟨hF,-,all,hall,rfl⟩ := Edit.Meets.frame_ok expectedItems_trailed ⟨h.held,h.shown⟩ hE
    have hsub : (if styleIs style "flat" then all.dropLast else all) ⊆ all := by
      split
      · exact (List.dropLast_sublist all).subset
      · exact List.Subset.refl _
    have hitems : ∀ x ∈ D, t.Item "comma" x := (h.frame hF).items
    refine ⟨hF,?_,?_⟩
    · intro e he
      rcases hall.mem e (hsub he) with he | he
      · exact (hitems e he).typed
      · exact ⟨_,_,he.goes⟩
    · intro u hu
      have hkeys : all.map (sepKey "comma" u) = trailed D :=
        hall.keys (fun c hc => (hc.frame hu htype).key) (fun x hx => ((hitems x hx).frame hu htype).sepKey)
      change _ = spread (styleIs style "flat") D
      unfold spread
      split
      · rw [List.map_dropLast]
        exact congrArg List.dropLast hkeys
      · exact hkeys
  | dotted =>
    obtain ⟨c,hc,hitems,-⟩ := h.shown
    obtain ⟨hF,hchain⟩ := expectedItems_chain h.held ⟨c,hc,hitems⟩ h.items hE
    refine ⟨hF,fun e he => Store.Links.typed (hchain.mem.1 e he),fun hu => ?_⟩
    exact (hchain.frame hu htype).keys (fun d hd => hd.key) (fun x hx => hx.sepKey)
  | _ => cases hform

/-- What stands in front of the part of a list that is mended, and that part, which does not go on with dots. -/
structure Leading (s : Store) (form : ViewForm) (settled L : List Value) : Prop where
  typed : ∀ x ∈ L, s.Typed x
  none : form ≠ .dotted → settled = []
  dots : form = .dotted → (∀ d ∈ settled, s.Dot d) ∧ ∀ x ∈ L.head?, s.Item "dot" x

theorem Leading.settledItems (h : Leading s form settled L) (hF : s.Frame .attributes t) :
    settledItems form (settled ++ L) t = .ok settled.length := by
  by_cases hform : form = .dotted
  · subst hform
    obtain ⟨hdots,hhead⟩ := h.dots rfl
    exact leadingDots_ok (fun d hd => (hdots d hd).frame hF Freedom.type_kept)
      (fun x hx => (hhead x hx).frame hF Freedom.type_kept)
  · rw [h.none hform]
    exact settledItems_zero hform

theorem Leading.frame (h : Leading s form settled L) (hF : s.Frame F t) (ht : F.KeepsTypes) :
    Leading t form settled L where
  typed x hx := (h.typed x hx).frame hF ht
  none := h.none
  dots hform := ⟨fun d hd => ((h.dots hform).1 d hd).frame hF ht,fun x hx => ((h.dots hform).2 x hx).frame hF ht⟩

theorem alignSeparators_mends (hform : form.mends = true) (pairs : List (Value × Value)) :
    Within .attributes (alignSeparators form pairs) := by
  cases form with
  | comma => exact alignSeparators_commas pairs
  | dotted => exact alignSeparators_dotted pairs
  | _ => cases hform

theorem Showing.pass (h : Showing w l n f k form style D s) (hform : form.mends = true)
    (hlist : s.HasItems l .nodes (settled ++ L)) (hL : Leading s form settled L) {fuel : Nat} {dir : Direction} {r : Unit}
    (hpass : bringInStep fuel dir w p s = .ok r t) :
    ∃ E plan, Passed (sepKey form.separator t) w l settled L dir s t E plan ∧ Showing w l n f k form style D t ∧
      (∀ x ∈ plan.result, t.Typed x) ∧ E.map (sepKey form.separator t) = t.expectedKeys form style D := by
  have htype := Freedom.editing_type w l
  have hflat : form.lineBased = false := by
    cases form with
    | comma | dotted => rfl
    | _ => cases hform
  obtain ⟨E,u,plan,hE,hpassed,-,halign⟩ := bringInStep_passed hlist hL.typed
    (fun E u hE => ⟨(h.expected hform hE).1,(h.expected hform hE).2.1⟩) (fun u hF => hL.settledItems hF)
    (alignSeparators_mends hform) hpass hflat h.held.target
  obtain ⟨hF,htyped,hkeys⟩ := h.expected hform hE
  have hstays := (Edit.Meets.frame_ok (alignSeparators_mends hform plan.pairs) trivial halign).1
  have hholding : u.Frame (.editing w l) (u.holding l (settled ++ plan.result)) := Store.frame_holding rfl _
  have hF' : u.Frame (.editing w l) t := hholding.trans (hstays.mono (Freedom.attributes_le w l))
  have hu := h.frame hF
  have hshowing : Showing w l n f k form style D (u.holding l (settled ++ plan.result)) :=
    ⟨stable_held _ _ hu.held hholding,hu.shown,fun x hx => (hu.items x hx).frame hholding htype⟩
  refine ⟨E,plan,hpassed,hshowing.frame hstays,?_,hkeys hF'⟩
  intro x hx
  rcases hpassed.origin x hx with hx | hx
  · exact (hL.typed x hx).frame hpassed.frame htype
  · exact (htyped x hx).frame hF' htype

theorem Store.Typed.links (h : s.Typed v) : s.Links v := by
  obtain ⟨k,type,hgoes⟩ := h
  by_cases hdot : type = .text "dot"
  · exact .inl ⟨k,hdot ▸ hgoes⟩
  · exact .inr ⟨k,type,hgoes,hdot⟩

theorem leading_of_begins (hL : ∀ x ∈ L, t.Typed x) (hF : s.Frame F t) (ht : F.KeepsTypes)
    {L₀ : List Value} (h : Leading s form settled L₀)
    (hkeys : L.map (sepKey form.separator t) <+: t.expectedKeys form style D) : Leading t form settled L := by
  refine ⟨hL,h.none,?_⟩
  rintro rfl
  refine ⟨fun d hd => ((h.dots rfl).1 d hd).frame hF ht,?_⟩
  have hlinks : ∀ x ∈ L, t.Links x := fun x hx => (hL x hx).links
  exact head_of_prefix hkeys (fun x hx => (hlinks x hx).key)

theorem Showing.realigned (h : Showing w l n f k form style D s) (hform : form.mends = true)
    (hlist : s.HasItems l .nodes (settled ++ L)) (hL : Leading s form settled L) (hpasses : Passes p w [.taking,.adding] s u) :
    ∃ L', Showing w l n f k form style D u ∧ u.HasItems l .nodes (settled ++ L') ∧ Leading u form settled L' ∧
      L'.map (sepKey form.separator u) = u.expectedKeys form style D := by
  have htype := Freedom.editing_type w l
  obtain ⟨t,htaking,hadding⟩ := Passes.split (show Passes p w ([.taking] ++ [.adding]) s u from hpasses)
  obtain ⟨_,htaking⟩ := htaking.single
  obtain ⟨_,hadding⟩ := hadding.single
  obtain ⟨E,plan,hpassed,ht,htyped,hE⟩ := h.pass hform hlist hL htaking
  have hbegins : plan.result.map (sepKey form.separator t) <+: t.expectedKeys form style D :=
    hE ▸ (hpassed.taking rfl).isPrefix_keys hpassed.fits
  have hL₁ : Leading t form settled plan.result := leading_of_begins htyped hpassed.frame htype hL hbegins
  obtain ⟨E',plan',hpassed',hu,htyped',hE'⟩ := ht.pass hform hpassed.behind hL₁ hadding
  have hsame : plan.result.map (sepKey form.separator u) <+: u.expectedKeys form style D := by
    rw [ht.expectedKeys_frame hpassed'.frame htype,
      List.map_congr_left (fun x hx => sepKey_frame (htyped x hx) hpassed'.frame htype)]
    exact hbegins
  have hall := (hpassed'.adding rfl).all_placed (by rw [hE']; exact hsame.sublist)
  have hkeys := (hpassed'.fits hall).trans hE'
  have hends : plan'.result.map (sepKey form.separator u) <+: u.expectedKeys form style D :=
    hkeys ▸ List.prefix_refl _
  exact ⟨plan'.result,hu,hpassed'.behind,leading_of_begins htyped' hpassed'.frame htype hL₁ hends,hkeys⟩

end Passes

/-! ## Calls -/

/-- The calls that put values in the place of items. -/
def Change.puts : Change → Prop
  | .put _ _ | .putSpan _ _ => True
  | _ => False

theorem Change.puts_passes {change : Change} (h : change.puts) :
    change.passes = [.taking,.adding] ∨ change.passes = [.taking,.adding] ++ [.taking,.adding] := by
  cases change with
  | put i v => exact .inl rfl
  | putSpan span l => exact .inr rfl
  | _ => exact h.elim

/-- What a pass may change: attributes other than the type, and the items of the list behind a view. -/
def Freedom.behind (l : ListId) : Freedom := ⟨fun _ a => a ≠ .field .type,fun l' => l' = l,fun _ => False⟩

theorem Freedom.attributes_le_behind (l : ListId) : attributes ≤ behind l :=
  ⟨fun _ _ h => h,fun _ h => h.elim,fun _ h => h.elim⟩

theorem bringInStep_behind (hform : form.mends = true) (fuel : Nat) (dir : Direction) :
    Gives (.behind l) (fun s => Held s w l n f k form) (fun _ _ => True) (bringInStep fuel dir w) := by
  have hle := Freedom.attributes_le_behind l
  have hexpected : Gives (.behind l) (fun s => Held s w l n f k form) (fun _ _ => True) (expectedItems w) := by
    cases form with
    | comma => exact Edit.Meets.reframe expectedItems_commaed (fun _ _ hF => hF.mono hle)
    | dotted => exact expectedItems_held
    | _ => cases hform
  have halign : ∀ pairs, Gives (.behind l) (fun s => Held s w l n f k form) (fun _ _ => True) (alignSeparators form pairs) := by
    intro pairs
    exact .of_within stable_held ((alignSeparators_mends hform pairs).mono hle) (fun _ _ _ _ _ _ => trivial)
  exact bringInStep_gives stable_held (fun _ hs => hs.target) rfl hexpected halign fuel dir

theorem Passes.frame (hheld : Held s w l n f k form) (hform : form.mends = true) {dirs : List Direction}
    (h : Passes p w dirs s u) : s.Frame (.behind l) u := by
  induction h with
  | nil s => exact Store.Frame.refl _ s
  | cons hstep _ ih =>
    obtain ⟨hF,hheld,-⟩ := Edit.Meets.frame_ok (bringInStep_behind hform _ _) hheld hstep
    exact hF.trans (ih hheld)

/-- The dots that the list behind a view of items behind dots begins with. -/
def Store.leadingPart (s : Store) (form : ViewForm) (L : List Value) : List Value :=
  if form = .dotted then L.takeWhile (fun x => (sepKey "dot" s x).isNone) else []

theorem Store.leadingPart_leading (s : Store) (form : ViewForm) (hL : ∀ x ∈ L, s.Typed x) :
    ∃ rest, L = s.leadingPart form L ++ rest ∧ Leading s form (s.leadingPart form L) rest := by
  unfold Store.leadingPart
  by_cases hform : form = .dotted
  · subst hform
    rw [if_pos rfl]
    refine ⟨L.dropWhile (fun x => (sepKey "dot" s x).isNone),List.takeWhile_append_dropWhile.symm,?_,by simp,fun _ => ⟨?_,?_⟩⟩
    · exact fun x hx => hL x ((List.dropWhile_sublist _).subset hx)
    · intro d hd
      have hnone := List.all_eq_true.mp List.all_takeWhile d hd
      rcases (hL d ((List.takeWhile_sublist _).subset hd)).links.key with ⟨hdot,-⟩ | ⟨-,hkey⟩
      · exact hdot
      · simp [hkey] at hnone
    · intro x hx
      have hsome := List.head?_dropWhile_not (fun x => (sepKey "dot" s x).isNone) L
      rw [Option.mem_def.mp hx] at hsome
      have hmem := (List.dropWhile_sublist _).subset (List.mem_of_mem_head? hx)
      rcases (hL x hmem).links.key with ⟨-,hkey⟩ | ⟨hitem,-⟩
      · simp [hkey] at hsome
      · exact hitem
  · rw [if_neg hform]
    exact ⟨L,rfl,hL,fun _ => rfl,fun h => absurd h hform⟩

section Putting
variable {change : Change} {style : Option Value} (hform : form.mends = true) (hheld : Held s w l n f k form)
include hform hheld

theorem Change.run_converted (hD : s.ShowsItems w D) (hitems : ∀ x ∈ D, s.Item form.separator x)
    (hgiven : ∀ v ∈ change.values s, s.Givable v) (hrun : change.run w p s = .ok () u) :
    ∃ xs t D', itemsFromEach w (change.values s) p s = .ok xs t ∧ (∀ x ∈ xs, t.Knows x) ∧ change.Makes D xs D' ∧
      s.Frame .attributes t ∧ Passes p w change.passes (t.showing w D') u ∧ (t.showing w D').Frame (.behind l) u := by
  have hconverted : ∀ xs t, itemsFromEach w (change.values s) p s = .ok xs t →
      s.Frame .attributes t ∧ ∀ x ∈ xs, t.Knows x :=
    fun xs t hxs => Edit.Meets.frame_ok (itemsFromEach_held hheld hform hgiven) rfl hxs
  obtain ⟨xs,t,D',hxs,hmakes,hpasses⟩ := Change.run_ok hD (fun x hx => (hitems x hx).typed.node)
    (fun _ hc _ => hheld.plain (form.mends_plain hform) hc) (fun xs t hxs => hD.frame (hconverted xs t hxs).1 id) hrun
  obtain ⟨hF,hknown⟩ := hconverted xs t hxs
  have hF' := hF.showing w l D'
  exact ⟨xs,t,D',hxs,hknown,hmakes,hF,hpasses,hpasses.frame (stable_held _ _ hheld hF') hform⟩

theorem Change.run_showing (hD : s.ShowsItems w D) (hitems : ∀ x ∈ D, s.Item form.separator x)
    (hgiven : ∀ v ∈ change.values s, s.Givable v) (hrun : change.run w p s = .ok () u) (hD' : u.ShowsIn w style D')
    (hitems' : ∀ x ∈ D', u.Item form.separator x) :
    ∃ xs t, itemsFromEach w (change.values s) p s = .ok xs t ∧ change.Makes D xs D' ∧ s.Frame .attributes t ∧
      Showing w l n f k form style D' (t.showing w D') ∧ Passes p w change.passes (t.showing w D') u := by
  obtain ⟨xs,t,D₁,hxs,hknown,hmakes,hF,hpasses,hF'⟩ := Change.run_converted hform hheld hD hitems hgiven hrun
  have hshowing : t.Frame (.editing w l) (t.showing w D₁) := Store.frame_showing rfl D₁
  have hheld' := stable_held _ _ hheld ((hF.mono (Freedom.attributes_le w l)).trans hshowing)
  obtain ⟨c,hc,-⟩ := hheld.view
  obtain ⟨d,hd,-⟩ := hF.view hc
  have hshown : (t.showing w D₁).ShowsIn w d.style D₁ :=
    ⟨{ d with items := D₁ },by rw [Store.showing,Store.mapView_get,if_pos rfl,hd]; rfl,rfl,rfl⟩
  obtain ⟨e,he,rfl,hestyle⟩ := stable_showsIn (F := .behind l) id _ _ _ _ hshown hF'
  obtain ⟨e',he',rfl,rfl⟩ := hD'
  cases he.symm.trans he'
  refine ⟨xs,t,hxs,hmakes,hF,⟨hheld',hestyle ▸ hshown,fun x hx => (hitems' x hx).back hF' (fun _ h => h rfl) ?_⟩,hpasses⟩
  apply stable_knows x t _ _ hshowing
  rcases hmakes.mem hx with hx | hx
  · obtain ⟨_,_,⟨m,c,rfl,hc,-⟩,-⟩ := hitems x hx
    obtain ⟨d,hd,-⟩ := hF.node hc
    rintro m' ⟨⟩
    exact ⟨d,hd⟩
  · exact hknown x hx

end Putting

theorem Showing.matches (h : Showing w l n f k form style D s) (hform : form.mends = true) (hL : ∀ x ∈ L, s.Typed x)
    (hkeys : L.map (sepKey form.separator s) = s.expectedKeys form style D) (hE : expectedItems w p s = .ok E t) :
    List.Forall₂ (fun y e => y = e ∨
      (hasType y form.separator t = .ok true ∧ hasType e form.separator t = .ok true)) L E := by
  have htype : ∀ n, ¬ Freedom.attributes.attr n (.field .type) := Freedom.type_kept
  obtain ⟨hF,-,hkeysE⟩ := h.expected hform hE
  have hnone : ∀ {x}, sepKey form.separator t x = none → hasType x form.separator t = .ok true := by
    intro x hx
    unfold sepKey at hx
    split at hx
    · assumption
    · cases hx
  have hsame : L.map (sepKey form.separator t) = E.map (sepKey form.separator t) := by
    rw [hkeysE (Store.Frame.refl _ t),h.expectedKeys_frame hF htype,← hkeys]
    exact List.map_congr_left (fun x hx => sepKey_frame (hL x hx) hF htype)
  have hall : List.Forall₂ (fun y e => sepKey form.separator t y = sepKey form.separator t e) L E := by
    rw [← List.forall₂_map_right_iff (f := sepKey form.separator t),← List.forall₂_map_left_iff (f := sepKey form.separator t),
      List.forall₂_eq_eq_eq]
    exact hsame
  exact hall.imp (fun y e hye => (sepKey_eq_iff.mp hye).imp_right (fun h => ⟨hnone h.1,hnone h.2⟩))

/-- Putting values in the place of items leaves behind them exactly what is expected, whatever nodes the list held
before; the dots that it began with stay in front. -/
theorem put_mends (hform : form = .comma ∨ form = .dotted) (hheld : Held s w l n f k form) (hD : s.ShowsItems w D)
    (hitems : ∀ x ∈ D, s.Item form.separator x) (hlist : s.HasItems l .nodes L) (hL : ∀ x ∈ L, s.Typed x)
    {change : Change} (hputs : change.puts) (hgiven : ∀ v ∈ change.values s, s.Givable v)
    (hrun : change.run w p s = .ok () u) {style : Option Value} (hD' : u.ShowsIn w style D')
    (hitems' : ∀ x ∈ D', u.Item form.separator x) :
    (∃ xs t, itemsFromEach w (change.values s) p s = .ok xs t ∧ change.Makes D xs D') ∧
    ∃ rest, u.HasItems l .nodes (s.leadingPart form L ++ rest) ∧
      rest.map (sepKey form.separator u) = u.expectedKeys form style D' ∧
      ∀ E t, expectedItems w p u = .ok E t → List.Forall₂ (fun y e => y = e ∨
        (hasType y form.separator t = .ok true ∧ hasType e form.separator t = .ok true)) rest E := by
  have hmends : form.mends = true := by rcases hform with rfl | rfl <;> rfl
  obtain ⟨xs,t,hxs,hmakes,hF,hshowing,hpasses⟩ := Change.run_showing hmends hheld hD hitems hgiven hrun hD' hitems'
  obtain ⟨rest,hsplit,hleading⟩ := s.leadingPart_leading form hL
  have hbehind : (t.showing w D').HasItems l .nodes (s.leadingPart form L ++ rest) :=
    ((hsplit ▸ hlist).frame hF id :)
  have hleading := hleading.frame ((hF.mono (Freedom.attributes_le w l)).trans (Store.frame_showing rfl D'))
    (Freedom.editing_type w l)
  obtain ⟨L',hu,hbehind',hleading',hkeys⟩ : ∃ L', Showing w l n f k form style D' u ∧
      u.HasItems l .nodes (s.leadingPart form L ++ L') ∧ Leading u form (s.leadingPart form L) L' ∧
      L'.map (sepKey form.separator u) = u.expectedKeys form style D' := by
    rcases Change.puts_passes hputs with hone | htwo
    · rw [hone] at hpasses
      exact hshowing.realigned hmends hbehind hleading hpasses
    · rw [htwo] at hpasses
      obtain ⟨v,hfirst,hsecond⟩ := hpasses.split
      obtain ⟨_,hv,hlist,hleading,-⟩ := hshowing.realigned hmends hbehind hleading hfirst
      exact hv.realigned hmends hlist hleading hsecond
  exact ⟨⟨xs,t,hxs,hmakes⟩,L',hbehind',hkeys,fun E v hE => hu.matches hmends hleading'.typed hkeys hE⟩

/-- The list `[a,b]` after its nodes were moved about: behind the view stand `b` and the comma, twice. -/
def driftedNames : Store := namesInBrackets.holding ⟨2⟩ [.node ⟨3⟩,.node ⟨2⟩,.node ⟨2⟩]

/-- The first item is put in its own place, and the list is mended. -/
theorem put_mends_names : ∃ u rest, (Change.put 0 (.node ⟨1⟩)).run ⟨0⟩ (fun _ => .ok .null) driftedNames = .ok () u ∧
    u.HasItems ⟨2⟩ .nodes rest ∧ rest.map (sepKey "comma" u) = [some (.node ⟨1⟩),none,some (.node ⟨3⟩)] := by
  have hsucceeds : (Change.run ⟨0⟩ (.put 0 (.node ⟨1⟩))).succeeds (fun _ => .ok .null) driftedNames = true := by
    decide +kernel
  obtain ⟨_,u,hrun⟩ := Edit.succeeds_iff.mp hsucceeds
  have hgoes : ∀ {i : Nat} {c : NodeCell} {type : String}, driftedNames.nodes[i]? = some c →
      c.stored? (.field .type) = some (.text type) → driftedNames.Goes (.node ⟨i⟩) c.kind (.text type) :=
    fun hc htype => ⟨⟨_⟩,_,rfl,hc,rfl,htype⟩
  have hitems : ∀ x ∈ [Value.node ⟨1⟩,.node ⟨3⟩], driftedNames.Item "comma" x := by
    simp only [List.mem_cons,List.not_mem_nil,or_false,forall_eq_or_imp,forall_eq]
    exact ⟨⟨_,_,hgoes rfl rfl,by simp⟩,⟨_,_,hgoes rfl rfl,by simp⟩⟩
  have hL : ∀ x ∈ [Value.node ⟨3⟩,.node ⟨2⟩,.node ⟨2⟩], driftedNames.Typed x := by
    simp only [List.mem_cons,List.not_mem_nil,or_false,forall_eq_or_imp,forall_eq]
    exact ⟨⟨_,_,hgoes rfl rfl⟩,⟨_,_,hgoes rfl rfl⟩,⟨_,_,hgoes rfl rfl⟩⟩
  have hheld : Held driftedNames ⟨0⟩ ⟨2⟩ ⟨0⟩ .value .list .comma :=
    ⟨⟨_,rfl,rfl,rfl,rfl⟩,⟨_,rfl,rfl,rfl,rfl⟩,⟨_,rfl,rfl⟩,rfl⟩
  have hgiven : ∀ v ∈ (Change.put 0 (.node ⟨1⟩)).values driftedNames, driftedNames.Givable v := by
    intro v hv
    obtain rfl := List.mem_singleton.mp hv
    trivial
  obtain ⟨xs,t,D',hxs,-,hmakes,hF,-,hF'⟩ := Change.run_converted rfl hheld ⟨_,rfl,rfl⟩ hitems hgiven hrun
  obtain ⟨x,j,rfl,hj,rfl⟩ := hmakes
  obtain rfl : x = .node ⟨1⟩ := by
    cases itemsFromEach_nodes hxs with
    | cons hx _ => exact hx ⟨1⟩ rfl
  obtain rfl : j = 0 := by
    change j < 2 ∧ ((j : Int) = 0 ∨ (j : Int) = 0 + 2) at hj
    omega
  have hshown : (t.showing ⟨0⟩ [.node ⟨1⟩,.node ⟨3⟩]).ShowsIn ⟨0⟩ (some (.text "flat")) [.node ⟨1⟩,.node ⟨3⟩] := by
    obtain ⟨d,hd,hkeeps⟩ := hF.view (w := ⟨0⟩) rfl
    exact ⟨{ d with items := _ },by rw [Store.showing,Store.mapView_get,if_pos rfl,hd]; rfl,rfl,hkeeps.style⟩
  have hshown := stable_showsIn (F := .behind ⟨2⟩) id _ _ _ _ hshown hF'
  have hitems' : ∀ x ∈ [Value.node ⟨1⟩,.node ⟨3⟩], u.Item "comma" x := by
    have hfree : Freedom.behind ⟨2⟩ ≤ .editing ⟨0⟩ ⟨2⟩ := ⟨fun _ _ h => h,fun _ h => h,fun _ h => h.elim⟩
    have hframe : driftedNames.Frame (.editing ⟨0⟩ ⟨2⟩) u :=
      (hF.mono (Freedom.attributes_le _ _)).trans ((Store.frame_showing rfl _).trans (hF'.mono hfree))
    exact fun x hx => (hitems x hx).frame hframe (Freedom.editing_type _ _)
  have hputs : (Change.put 0 (.node ⟨1⟩)).puts := trivial
  obtain ⟨-,rest,hrest,hkeys,-⟩ := put_mends (.inl rfl) hheld ⟨_,rfl,rfl⟩ hitems ⟨_,rfl,rfl,rfl⟩ hL hputs hgiven hrun hshown
    hitems'
  exact ⟨u,rest,hrun,hrest,hkeys⟩

end CodeTree
