import CodeTree.Proofs.Blocks
import CodeTree.Proofs.DocumentBoxes
import CodeTree.Proofs.Lines

/-! # Runs of calls on lines

What calls that put in or take out one line at a time leave of the statements behind a view of lines. A pass that
takes away loses statements if line ends are missing between them, and one that adds repeats statements if the list
has more line ends than are expected.
-/
namespace CodeTree
variable {p : Parser} {s t u : Store} {F : Freedom} {K : Store → Prop} {w : ViewId} {l : ListId} {form : ViewForm} {α : Type}
  {leading : Bool} {change : Change} {dir : Direction} {ds : List Datum} {D shown : List Value} {a b : Mark} {c : NodeCell}
  {n : NodeId} {place : Option Attr} {r : Unit} {v parent : Value}

section Converting
variable {n : NodeId} {k : Kind} {vs : List Value}

theorem separating_endl : Separating "endl" := by
  intro k hk
  rw [ofWord_endl] at hk
  cases hk
  rfl

section Blocks
variable (hK : Stable .attributes K) (hthrough : k.viewForm .value = some .lines)
include hK hthrough

theorem listOfText_block (hkind : ∀ s, K s → s.HasKind n k) (text : String) (parent : Value) :
    Gives .attributes K (fun l s => s.Tellers "endl" l) (listOfText n text parent (some (.field .value))) := by
  have hblock := blockOf_gives separating_endl (fun n h => by cases h) hK n text parent (some (.field .value))
  unfold listOfText
  refine .ask (fun s c hs hc => ?_)
  obtain ⟨c',hc',hck⟩ := hkind s hs
  cases (Read.node_ok.mp hc).symm.trans hc'
  rw [hck]
  cases k <;> first | exact hblock | cases hthrough

theorem itemsFromEach_block (hheld : ∀ s, K s → Held s w l n .value k .lines)
    (hvs : ∀ s, K s → ∀ v ∈ vs, s.Sound "endl" v) :
    Gives .attributes K (fun xs s => ∀ x ∈ xs, s.Item "endl" x) (itemsFromEach w vs) := by
  have hkind : ∀ s, K s → s.HasKind n k := fun s hs => (hheld s hs).kind
  have hchild : k.childContext .value = none ∧ k ≠ .getitem := by
    cases k <;> first | exact ⟨rfl,by decide⟩ | cases hthrough
  exact itemsFromEach_gives hK separating_endl Freedom.type_kept (fun _ h => h) hheld
    (childOfText_gives hK separating_endl hkind hchild.1 hchild.2 (by decide))
    (fun text => listOfText_block hK hthrough hkind text _) (by decide) hvs

end Blocks

theorem itemsFromEach_document (hK : Stable .attributes K) (hview : ∀ s, K s → LineView s w l .document)
    (hvs : ∀ s, K s → ∀ v ∈ vs, s.Sound "endl" v) :
    Gives .attributes K (fun xs s => ∀ x ∈ xs, s.Tells "endl" x) (itemsFromEach w vs) := by
  refine itemsFromEach_each (stable_tells Freedom.type_kept "endl") (fun v hv => ?_)
  unfold itemFrom
  refine .ask (fun s c hs hc => ?_)
  obtain ⟨c',hc',hform,-⟩ := (hview s hs).view
  cases (Read.view_ok.mp hc).symm.trans hc'
  rw [hform]
  refine nodeFrom_gives hK (fun _ _ _ _ _ hn => (build_honest hn).tells separating_endl) (firstOf_gives hK separating_endl) ?_
  rintro s hs n rfl
  exact hvs s hs _ hv

theorem itemsFromEach_lines (hview : LineView s w l form) (hsound : ∀ v ∈ vs, s.Sound "endl" v) :
    (itemsFromEach w vs).Meets (fun s' => s' = s) (Store.Frame .attributes) (fun xs t => ∀ x ∈ xs, t.Typed x) := by
  have hsounds : Stable .attributes (fun s => ∀ v ∈ vs, s.Sound "endl" v) :=
    fun s t hs hF v hv => (hs v hv).frame hF Freedom.type_kept (fun _ h => h) (fun _ h => h)
  cases hview with
  | @block n k held =>
    have hK : Stable .attributes (fun s => Held s w l n .value k .lines ∧ ∀ v ∈ vs, s.Sound "endl" v) :=
      stable_held.and hsounds
    refine Edit.Meets.weaken (itemsFromEach_block hK held.through (fun s hs => hs.1) (fun s hs => hs.2)) ?_
      (fun xs t ht x hx => (ht.2 x hx).typed)
    rintro s' rfl
    exact ⟨held,hsound⟩
  | @document c view form target =>
    have hK : Stable .attributes (fun s => LineView s w l .document ∧ ∀ v ∈ vs, s.Sound "endl" v) :=
      stable_lineView.and hsounds
    refine Edit.Meets.weaken (itemsFromEach_document hK (fun s hs => hs.1) (fun s hs => hs.2)) ?_
      (fun xs t ht x hx => (ht.2 x hx).typed)
    rintro s' rfl
    exact ⟨.document view form target,hsound⟩

end Converting

section Pass
variable {D L E : List Value} {dir : Direction} {plan : Plan Value}

theorem alignSeparators_lines (hform : form.lineBased = true) (pairs : List (Value × Value)) :
    Within .attributes (alignSeparators form pairs) := by
  have halign : ∀ x e, Within .attributes (do
      let wanted ← attr e "indent"
      if !(← equal (← attr x "indent") wanted) then setIndent x wanted : Edit Unit) := by
    intro x e
    refine .bind (.read _) (fun wanted => .bind (.read _) (fun indent => .bind (.read _) (fun same => ?_)))
    exact .ite (.setIndent (fun n _ h => by cases h) wanted) (.pure _)
  induction pairs with
  | nil => exact .pure _
  | cons q pairs ih =>
    refine .bind ?_ (fun _ => ih)
    cases form <;> first | exact halign q.1 q.2 | cases hform

/-- The key by which a pass compares lines. -/
def Direction.key (dir : Direction) (D : List Value) (s : Store) (v : Value) : Option Value :=
  match dir with
  | .adding => lineKey D s v
  | .taking => sepKey "endl" s v

/-- The keys of what is expected for some lines. -/
def Store.wanted (s : Store) (form : ViewForm) (D : List Value) : List (Option Value) := form.wanted s.blank s.brings D

theorem ViewForm.wanted_congr {blank brings blank' brings' : Value → Bool}
    (h : ∀ x ∈ D, blank' x = blank x ∧ brings' x = brings x) :
    form.wanted blank' brings' D = form.wanted blank brings D := by
  have hafter : ∀ first done, wantedAfter blank' brings' first done D = wantedAfter blank brings first done D := by
    induction D with
    | nil => exact fun _ _ => rfl
    | cons v rest ih =>
      intro first done
      obtain ⟨hblank,hbrings⟩ := h v List.mem_cons_self
      have hrest := ih (List.forall_mem_cons.mp h).2
      rw [wantedAfter,wantedAfter,hblank,hbrings]
      simp only [hrest]
  exact hafter _ _

theorem Store.wanted_frame (hD : ∀ x ∈ D, s.Typed x) (hF : s.Frame F t) (ht : F.KeepsTypes) :
    t.wanted form D = s.wanted form D :=
  ViewForm.wanted_congr (fun x hx => ⟨Store.blank_frame (hD x hx) hF ht,Store.brings_frame (hD x hx) hF ht⟩)

/-- One pass over a list of lines. -/
structure LinesPassed (w : ViewId) (l : ListId) (form : ViewForm) (D L : List Value) (dir : Direction) (s t : Store)
    (E : List Value) (plan : Plan Value) : Prop extends Passed (dir.key D t) w l [] L dir s t E plan where
  shown : t.ShowsItems w D
  typed : ∀ x ∈ plan.result, t.Typed x
  expected : E.map (lineKey D t) = t.wanted form D

theorem Store.mem_of_wanted (h : some v ∈ s.wanted form D) : v ∈ D := by
  have hsub := (form.wanted_sublist s.blank s.brings some D).subset
  rw [List.filterMap_some] at hsub
  exact hsub (List.mem_filterMap.mpr ⟨some v,h,rfl⟩)

theorem fulfils_keys (hD : ∀ x ∈ D, s.Typed x) {es : List Value} {ks : List (Option Value)}
    (h : List.Forall₂ (Fulfils (s.OtherEnd D)) es ks) (hks : ∀ v, some v ∈ ks → v ∈ D) :
    (∀ e ∈ es, s.Typed e) ∧ es.map (lineKey D s) = ks := by
  induction h with
  | nil => exact ⟨by simp,rfl⟩
  | @cons e k es ks hfirst _ ih =>
    obtain ⟨htyped,hkeys⟩ := ih (fun v hv => hks v (List.mem_cons_of_mem _ hv))
    have hone : s.Typed e ∧ lineKey D s e = k := by
      cases k with
      | none => exact ⟨hfirst.1.typed,hfirst.key⟩
      | some v =>
        have hv := hks v List.mem_cons_self
        obtain rfl : e = v := hfirst
        exact ⟨hD e hv,lineKey_of_mem hv (hD e hv)⟩
    refine ⟨?_,by rw [List.map_cons,hone.2,hkeys]⟩
    intro x hx
    rcases List.mem_cons.mp hx with rfl | hx
    · exact hone.1
    · exact htyped x hx

theorem bringInStep_lines {fuel : Nat} (hview : LineView s w l form) (hshown : s.ShowsItems w D)
    (hlist : s.HasItems l .nodes L) (hL : ∀ x ∈ L, s.Typed x) (hD : ∀ x ∈ D, s.Typed x)
    (h : bringInStep fuel dir w p s = .ok r t) : ∃ E plan, LinesPassed w l form D L dir s t E plan := by
  have htype := Freedom.type_kept
  have htype' := Freedom.editing_type w l
  have hfree : ∀ n, Freedom.attributes.attr n (.field .indent) := fun n h => by cases h
  have hK : Stable .attributes (fun u => LineView u w l form ∧ u.ShowsItems w D ∧
      ∀ x ∈ D, u.Typed x ∧ u.blank x = s.blank x ∧ u.brings x = s.brings x) := by
    refine stable_lineView.and ((stable_showsItems (F := .attributes) id D).and (fun u v hu hF x hx => ?_))
    obtain ⟨hx,hblank,hbrings⟩ := hu x hx
    exact ⟨hx.frame hF htype,(Store.blank_frame hx hF htype).trans hblank,(Store.brings_frame hx hF htype).trans hbrings⟩
  have hexpected := expectedItems_lines hK htype hfree (fun u hu => hu.1) (fun u hu => hu.2.1) (fun u hu => hu.2.2)
  have hkeys : ∀ {es u}, expectedItems w p s = .ok es u → s.Frame .attributes u ∧ (∀ e ∈ es, u.Typed e) ∧
      es.map (lineKey D u) = s.wanted form D := by
    intro es u hes
    obtain ⟨hF,-,hes⟩ := Edit.Meets.frame_ok hexpected ⟨hview,hshown,fun x hx => ⟨hD x hx,rfl,rfl⟩⟩ hes
    exact ⟨hF,fulfils_keys (fun x hx => (hD x hx).frame hF htype) hes (fun v hv => Store.mem_of_wanted hv)⟩
  obtain ⟨c,hc,hform,htarget⟩ := hview.view
  obtain ⟨c',hc',hitems⟩ := id hshown
  cases hc.symm.trans hc'
  have hline := hview.lineBased
  have hsettled : ∀ u, s.Frame .attributes u → settledItems form ([] ++ L) u = .ok 0 :=
    fun u _ => settledItems_zero (by intro h; rw [h] at hline; cases hline)
  have hcompares : ∀ u d E, s.Frame .attributes u → d.form = form → d.items = c.items → (∀ x ∈ L, u.Typed x) →
      (∀ e ∈ E, u.Typed e) → Compares (judgeOf dir d u) (dir.key D u) L E := by
    intro u d E hF hdform hditems hL hE
    rw [hitems] at hditems
    rw [← hdform] at hline
    cases dir with
    | adding =>
      have hcompare := compares_lines hline (fun x hx => (hD x (hditems ▸ hx)).frame hF htype) hL hE
      rwa [hditems] at hcompare
    | taking =>
      have hcompare := compares_taking (c := d) hL hE
      rwa [ViewForm.separator_of_lines hline] at hcompare
  have hkey : ∀ u v x, u.Typed x → u.Frame (.editing w l) v → dir.key D v x = dir.key D u x := by
    intro u v x hx hF
    cases dir with
    | adding => exact lineKey_frame hx hF htype'
    | taking => exact sepKey_frame hx hF htype'
  have hlist : s.HasItems l .nodes ([] ++ L) := hlist
  obtain ⟨E,u,plan,hes,hpassed,-,haligned⟩ := bringInStep_keyed hlist hL
    (fun es u hes => ⟨(hkeys hes).1,(hkeys hes).2.1⟩) hsettled (alignSeparators_lines hview.lineBased) h (dir.key D) hc
    htarget hform hcompares hkey
  obtain ⟨hF,hE,hEkeys⟩ := hkeys hes
  have hstays := (Edit.Meets.frame_ok (alignSeparators_lines hview.lineBased plan.pairs) trivial haligned).1
  have hF' : u.Frame (.editing w l) t :=
    (Store.frame_holding rfl ([] ++ plan.result)).trans (hstays.mono (Freedom.attributes_le w l))
  have hshown' : (u.holding l ([] ++ plan.result)).ShowsItems w D :=
    (hshown.frame hF id :)
  refine ⟨E,plan,hpassed,hshown'.frame hstays id,?_,?_⟩
  · intro x hx
    rcases hpassed.origin x hx with hx | hx
    · exact (hL x hx).frame hpassed.frame htype'
    · exact (hE x hx).frame hF' htype'
  · rw [Store.wanted_frame hD hpassed.frame htype',← hEkeys]
    exact List.map_congr_left (fun e he => lineKey_frame (hE e he) hF' htype')

end Pass

section Keys
variable {D D' L : List Value}

/-- Some lines with their line ends, where a blank line is a line end like any other. -/
def Store.lined (s : Store) (form : ViewForm) (D : List Value) : List (Option Value) :=
  form.lead ++ D.flatMap (lineParts s.blank s.brings)

/-- No blank line stands right behind one that is taken to bring its line end. -/
def Store.Unbroken (s : Store) (D : List Value) : Prop := CodeTree.Unbroken s.blank s.brings D

/-- Some lines without a blank one. -/
def Store.Solid (s : Store) (D : List Value) : Prop := ∀ x ∈ D, s.blank x = false

/-- A list has all lines with their line ends, up to the last line. -/
def Store.Separated (s : Store) (form : ViewForm) (L D : List Value) : Prop :=
  ((s.lined form D).rdropWhile Option.isNone).Sublist (L.map (sepKey "endl" s))

/-- A list has, up to its last line, nothing but lines with their line ends. -/
def Store.Tight (s : Store) (form : ViewForm) (L D : List Value) : Prop :=
  ((L.map (sepKey "endl" s)).rdropWhile Option.isNone).Sublist (s.lined form D)

theorem Store.Solid.unbroken (h : s.Solid D) : s.Unbroken D := by
  induction D with
  | nil => exact .nil
  | cons x D ih =>
    refine (ih (List.forall_mem_cons.mp h).2).cons (fun y hy _ => ?_)
    exact h y (List.mem_cons_of_mem _ (List.mem_of_mem_head? hy))

theorem Store.lined_sublist (h : D.Sublist D') : (s.lined form D).Sublist (s.lined form D') :=
  (List.Sublist.refl _).append (h.flatMap _)

theorem Store.wanted_lined (h : s.Unbroken D) :
    (s.wanted form D).map (·.bind (sepKey "endl" s)) = s.lined form D :=
  form.wanted_keys (sepKey_endl s) (fun _ => Store.blank_of_brings) h

theorem Store.Solid.wanted (h : s.Solid D) : s.wanted form D = s.lined form D := form.wanted_solid h

theorem Store.Solid.lineKey (h : s.Solid D) (hD : ∀ x ∈ D, s.Typed x) (hv : s.Typed v) :
    lineKey D s v = sepKey "endl" s v := by
  unfold CodeTree.lineKey
  split
  · next hany =>
    obtain ⟨x,hx,his⟩ := List.any_eq_true.mp hany
    obtain rfl := ((hD x hx).is_iff hv).mp his
    rw [sepKey_endl,h x hx]
    rfl
  · rfl

theorem rdropWhile_sublist {drop : α → Bool} {xs ys : List α} (h : xs.Sublist ys) :
    (xs.rdropWhile drop).Sublist (ys.rdropWhile drop) := by
  unfold List.rdropWhile
  have hrev : ∀ {as bs : List α}, as.Sublist bs → (as.dropWhile drop).Sublist (bs.dropWhile drop) := by
    intro as bs hsub
    induction hsub with
    | slnil => exact List.Sublist.refl _
    | @cons as bs b hsub ih =>
      rw [List.dropWhile_cons]
      split
      · exact ih
      · exact (List.dropWhile_sublist drop).trans (hsub.cons b)
    | @cons_cons as bs a hsub ih =>
      rw [List.dropWhile_cons,List.dropWhile_cons]
      split
      · exact ih
      · exact hsub.cons_cons a
  exact (hrev h.reverse).reverse

theorem Store.Separated.takes (h : s.Separated form L D) (hsub : D'.Sublist D) : s.Separated form L D' :=
  (rdropWhile_sublist (Store.lined_sublist hsub)).trans h

theorem Store.Tight.adds (h : s.Tight form L D) (hsub : D.Sublist D') : s.Tight form L D' :=
  h.trans (Store.lined_sublist hsub)

section Frame
variable (hD : ∀ x ∈ D, s.Typed x) (hF : s.Frame F t) (ht : F.KeepsTypes)
include hD hF ht

theorem Store.lined_frame : t.lined form D = s.lined form D := by
  unfold lined
  congr 1
  refine List.flatMap_congr (fun x hx => ?_)
  rw [lineParts,lineParts,Store.blank_frame (hD x hx) hF ht,Store.brings_frame (hD x hx) hF ht]

variable (hL : ∀ x ∈ L, s.Typed x)
include hL

theorem Store.Separated.frame (h : s.Separated form L D) : t.Separated form L D := by
  unfold Separated
  rw [Store.lined_frame hD hF ht,List.map_congr_left (fun x hx => sepKey_frame (hL x hx) hF ht)]
  exact h

theorem Store.Tight.frame (h : s.Tight form L D) : t.Tight form L D := by
  unfold Tight
  rw [Store.lined_frame hD hF ht,List.map_congr_left (fun x hx => sepKey_frame (hL x hx) hF ht)]
  exact h

end Frame

theorem map_rdropWhile {β : Type} (f : α → Option β) (xs : List α) :
    (xs.rdropWhile (fun x => (f x).isNone)).map f = (xs.map f).rdropWhile Option.isNone := by
  simp only [List.rdropWhile,← List.map_reverse,List.dropWhile_map]
  rfl

end Keys

section Outcomes
variable {D L E : List Value} {plan : Plan Value}

/-- The statements that are expected. -/
def Store.expects (s : Store) (form : ViewForm) (D : List Value) : List Value :=
  (s.wanted form D).filterMap (·.bind (sepKey "endl" s))

theorem Store.expects_sublist : (s.expects form D).Sublist (s.statements D) := form.wanted_sublist _ _ _ D

theorem Store.expects_eq_iff : s.expects form D = s.statements D ↔ s.Unbroken D :=
  form.wanted_statements_iff (sepKey_endl s) (fun _ => Store.blank_of_brings)

section Expected
variable {dir : Direction} (h : LinesPassed w l form D L dir s t E plan)
include h

theorem LinesPassed.ends : E.map (sepKey "endl" t) = (t.wanted form D).map (·.bind (sepKey "endl" t)) := by
  rw [← h.expected,List.map_map]
  exact List.map_congr_left (fun e _ => sepKey_lineKey D t e)

theorem LinesPassed.expects : E.filterMap (sepKey "endl" t) = t.expects form D := by
  have hends := congrArg (List.filterMap id) h.ends
  rwa [List.filterMap_map,List.filterMap_map] at hends

end Expected

section Taking
variable (h : LinesPassed w l form D L .taking s t E plan)
include h

/-- Taking away leaves a beginning of the statements that are expected. It leaves the statements of the view exactly if
all of them are expected and the list has them with their line ends. -/
theorem LinesPassed.taken : t.statements plan.result <+: t.expects form D ∧
    (t.statements plan.result = t.statements D ↔ t.Unbroken D ∧ t.Separated form L D) := by
  have hreduced : Reduced (sepKey "endl" t) L E plan := h.taking rfl
  have hbegins : t.statements plan.result <+: t.expects form D := h.expects ▸ hreduced.items_prefix h.fits
  have hiff : t.statements plan.result = t.expects form D ↔ _ := h.expects ▸ hreduced.items_eq_iff h.fits
  have hseparated : t.Unbroken D → (t.Separated form L D ↔ t.statements plan.result = t.expects form D) := by
    intro hD
    rw [hiff,h.ends,Store.wanted_lined hD]
    rfl
  refine ⟨hbegins,?_,?_⟩
  · intro heq
    have hall : t.expects form D = t.statements D :=
      Store.expects_sublist.eq_of_length_le (heq ▸ hbegins.length_le)
    have hD := Store.expects_eq_iff.mp hall
    exact ⟨hD,(hseparated hD).mpr (heq.trans hall.symm)⟩
  · rintro ⟨hD,hsep⟩
    exact ((hseparated hD).mp hsep).trans (Store.expects_eq_iff.mpr hD)

theorem LinesPassed.taken_separated (hD : t.Unbroken D) (hsep : t.Separated form L D) : t.Separated form plan.result D := by
  have hreduced : Reduced (sepKey "endl" t) L E plan := h.taking rfl
  refine (hreduced.longest _ ?_ hsep).sublist
  rw [h.ends,Store.wanted_lined hD]
  exact List.rdropWhile_prefix _ _

theorem LinesPassed.taken_tight (hD : t.Unbroken D) : t.Tight form plan.result D := by
  have hreduced : Reduced (sepKey "endl" t) L E plan := h.taking rfl
  have hbegins := hreduced.isPrefix_keys h.fits
  rw [h.ends,Store.wanted_lined hD] at hbegins
  exact ((List.rdropWhile_prefix _ _).trans hbegins).sublist

end Taking

section Adding
variable (h : LinesPassed w l form D L .adding s t E plan)
include h

/-- Adding leaves the statements that are expected, and after them those of an end of the list. If all are expected,
there are no others exactly if the list has nothing but what is expected up to its last line. -/
theorem LinesPassed.added : ∃ rest, rest <:+ L ∧ plan.result.map (sepKey "endl" t) =
      (t.wanted form D).map (·.bind (sepKey "endl" t)) ++ rest.map (sepKey "endl" t) ∧
    (t.statements rest = [] ↔ ((L.rdropWhile t.blank).map (lineKey D t)).Sublist (t.wanted form D)) := by
  have haugmented : Augmented (lineKey D t) L E plan := h.adding rfl
  obtain ⟨rest,hsuffix,hkeys,hiff⟩ := haugmented.items h.fits (·.bind (sepKey "endl" t)) (sepKey_lineKey D t)
  rw [h.ends] at hkeys
  rw [h.expected] at hiff
  exact ⟨rest,hsuffix,hkeys,hiff⟩

theorem LinesPassed.added_statements : ∃ rest, rest <:+ L ∧
    t.statements plan.result = t.expects form D ++ t.statements rest ∧
    (t.Unbroken D → (t.statements plan.result = t.statements D ↔
      ((L.rdropWhile t.blank).map (lineKey D t)).Sublist (t.wanted form D))) := by
  obtain ⟨rest,hsuffix,hkeys,hiff⟩ := h.added
  have hall := congrArg (List.filterMap id) hkeys
  rw [List.filterMap_append,List.filterMap_map,List.filterMap_map,List.filterMap_map] at hall
  have hall : t.statements plan.result = t.expects form D ++ t.statements rest := hall
  refine ⟨rest,hsuffix,hall,fun hD => ?_⟩
  rw [hall,Store.expects_eq_iff.mpr hD,List.append_right_eq_self]
  exact hiff

theorem LinesPassed.added_tight (hD : t.Solid D) (hlines : ∀ x ∈ D, t.Typed x) (hL : ∀ x ∈ L, t.Typed x)
    (htight : t.Tight form L D) : t.statements plan.result = t.statements D ∧ t.Tight form plan.result D := by
  obtain ⟨rest,-,hkeys,hiff⟩ := h.added
  have hplaced : ((L.rdropWhile t.blank).map (lineKey D t)).Sublist (t.wanted form D) := by
    have hsame : (L.rdropWhile t.blank).map (lineKey D t) = (L.rdropWhile t.blank).map (sepKey "endl" t) :=
      List.map_congr_left (fun x hx => hD.lineKey hlines (hL x ((List.rdropWhile_prefix _ _).subset hx)))
    rw [hsame,hD.wanted]
    exact (map_rdropWhile (sepKey "endl" t) L) ▸ htight
  have hnone := hiff.mpr hplaced
  obtain ⟨_,-,-,hagree⟩ := h.added_statements
  refine ⟨(hagree hD.unbroken).mpr hplaced,?_⟩
  unfold Store.Tight
  rw [hkeys,Store.wanted_lined hD.unbroken]
  refine (rdropWhile_prefix_of_append (fun k hk => ?_)).sublist
  obtain ⟨x,hx,rfl⟩ := List.mem_map.mp hk
  exact Option.isNone_iff_eq_none.mpr (List.filterMap_eq_nil_iff.mp hnone x hx)

theorem LinesPassed.added_separated (hD : t.Unbroken D) : t.Separated form plan.result D := by
  obtain ⟨rest,-,hkeys,-⟩ := h.added
  rw [Store.wanted_lined hD] at hkeys
  unfold Store.Separated
  rw [hkeys]
  exact (List.rdropWhile_prefix _ _).sublist.trans (List.sublist_append_left _ _)

end Adding

end Outcomes

section Within
variable (hfree : ∀ n, F.attr n (.field .indent))

theorem lineExpected_within {separator : Edit Value} (h : Within F separator) (bringsEnd first : Bool)
    (done D : List Value) : Within F (lineExpected separator bringsEnd first done D) := by
  induction D generalizing first done with
  | nil => exact .pure _
  | cons v rest ih =>
    have hgo : ∀ b : Bool, ∀ before : List Value, Within F (if b = true then
        lineExpected separator bringsEnd false (before ++ [v]) rest
      else do
        let s ← separator
        lineExpected separator bringsEnd false (before ++ [v,s]) rest) := by
      intro b before
      split
      · exact ih _ _
      · exact .bind h (fun _ => ih _ _)
    unfold lineExpected
    refine .bind (.read _) (fun type => ?_)
    exact .ite (.bind (.throw _) (fun _ => hgo _ _)) (hgo _ _)

include hfree in
/-- What is expected is made anew, whatever the lines are. -/
theorem expectedItems_lineView : Gives F (fun s => LineView s w l form) (fun _ _ => True) (expectedItems w) := by
  have hends : ∀ c indent, Within F (newLineEnd c indent) := fun c indent =>
    .bind (.bind (.of_adds (build_adds _ _ _)) (fun _ => .pure _))
      (fun v => .bind (.setIndent (fun n _ => hfree n) indent) (fun _ => .pure _))
  have hlines : ∀ {e : Edit (List Value)}, Within F e → Gives F (fun s => LineView s w l form) (fun _ _ => True) e :=
    fun he => .of_within stable_lineView he (fun _ _ _ _ _ _ => trivial)
  unfold expectedItems
  refine .ask (fun s c hs hc => ?_)
  obtain ⟨d,hd,hform,-⟩ := hs.view
  cases (Read.view_ok.mp hc).symm.trans hd
  dsimp only
  rw [hform]
  cases hs with
  | document => exact hlines (lineExpected_within (hends c _) _ _ _ _)
  | block =>
    refine .ask (fun s indent _ _ => .first stable_lineView (hends c indent) (fun first =>
      .first stable_lineView (lineExpected_within (hends c indent) _ _ _ _) (fun es => ?_)))
    split
    · exact .pure (fun _ _ => trivial)
    · exact .ask (fun s holder _ _ => lastIndent_gives stable_lineView hfree (fun _ _ => trivial) holder _)

end Within

/-- The direction of the one pass that a call makes for one line, or for lines that it takes out. -/
def Change.single : Change → Option Direction
  | .append _ | .insert _ _ => some .adding
  | .pop _ | .remove _ | .delete _ => some .taking
  | .extend _ | .put _ _ | .putSpan _ _ => none

theorem Change.single_passes (h : change.single = some dir) : change.passes = [dir] ∧ change.takesList = false := by
  cases change <;> cases h <;> exact ⟨rfl,rfl⟩

/-- Before a pass that adds, the view has got more lines, before one that takes away fewer. -/
def Direction.moves (dir : Direction) (D D' : List Value) : Prop :=
  match dir with
  | .adding => D.Sublist D'
  | .taking => D'.Sublist D

theorem Change.Makes.moves {D' xs : List Value} (h : change.Makes D xs D') (hsingle : change.single = some dir) :
    dir.moves D D' := by
  have hpasses := (Change.single_passes hsingle).1
  cases dir with
  | adding => exact h.adds hpasses
  | taking => exact h.takes hpasses

/-- A view of lines and the list behind it. -/
structure LinesAt (s : Store) (w : ViewId) (l : ListId) (form : ViewForm) (D L : List Value) : Prop where
  view : LineView s w l form
  shown : s.ShowsItems w D
  behind : s.HasItems l .nodes L
  lines : ∀ x ∈ D, s.Typed x
  items : ∀ x ∈ L, s.Typed x

/-- Calls that put in one line at a time or take some out, one after the other, each with some property of the store
that it leaves. A call that fails may be followed by others as long as it has changed neither the view nor the list
behind it. -/
inductive LineCalls (fine : Store → Prop) (p : Parser) (w : ViewId) (l : ListId) (s : Store) : Store → Prop
  | none : LineCalls fine p w l s s
  | done {t u : Store} {change : Change} {dir : Direction} : LineCalls fine p w l s t → change.single = some dir →
    (∀ v ∈ change.values t, t.Sound "endl" v) → change.run w p t = .ok () u → fine u → LineCalls fine p w l s u
  | failed {t u : Store} {change : Change} {dir : Direction} {fault : Fault} : LineCalls fine p w l s t →
    change.single = some dir → (∀ v ∈ change.values t, t.Sound "endl" v) → change.run w p t = .error fault u →
    (∀ D, t.ShowsItems w D → u.ShowsItems w D) → (∀ L, t.HasItems l .nodes L → u.HasItems l .nodes L) →
    LineCalls fine p w l s u

section Steps
variable {D L : List Value} {dir : Direction} {change : Change}

/-- What a call that succeeds does: it changes the view as it would change an ordinary list, and then makes one pass. -/
theorem LinesAt.call (h : LinesAt s w l form D L) (hsingle : change.single = some dir)
    (hsound : ∀ v ∈ change.values s, s.Sound "endl" v) (hrun : change.run w p s = .ok r u) :
    ∃ xs t D' E plan, itemsFromEach w (change.values s) p s = .ok xs t ∧ change.Makes D xs D' ∧
      s.Frame (.editing w l) u ∧ LinesPassed w l form D' L dir (t.showing w D') u E plan ∧
      LinesAt u w l form D' plan.result := by
  obtain ⟨hpasses,hlist⟩ := Change.single_passes hsingle
  have htype := Freedom.editing_type w l
  obtain ⟨xs,t,D',hxs,hmakes,-,hF',hshown,hbehind,hD',hpass⟩ := Change.run_made (fun x s t hx hF => hx.frame hF htype)
    (fun _ _ hx => hx) h.shown h.behind h.lines (fun _ _ htakes => by rw [hlist] at htakes; cases htakes)
    (fun xs t hxs => Edit.Meets.frame_ok (itemsFromEach_lines h.view hsound) rfl hxs) hrun
  rw [hpasses] at hpass
  obtain ⟨fuel,hpass⟩ := hpass.single
  have hview := stable_lineView _ _ h.view hF'
  obtain ⟨E,plan,hpassed⟩ := bringInStep_lines hview hshown hbehind
    (fun x hx => (h.items x hx).frame hF' htype) hD' hpass
  refine ⟨xs,t,D',E,plan,hxs,hmakes,hF'.trans hpassed.frame,hpassed,?_⟩
  exact ⟨stable_lineView _ _ hview hpassed.frame,hpassed.shown,hpassed.behind,
    fun x hx => (hD' x hx).frame hpassed.frame htype,hpassed.typed⟩

theorem LinesAt.failed {fault : Fault} (h : LinesAt s w l form D L) (hsingle : change.single = some dir)
    (hsound : ∀ v ∈ change.values s, s.Sound "endl" v) (hrun : change.run w p s = .error fault u)
    (hshown : u.ShowsItems w D) (hbehind : u.HasItems l .nodes L) :
    LinesAt u w l form D L ∧ s.Frame (.editing w l) u := by
  have htype := Freedom.editing_type w l
  have hview : ∀ s, LineView s w l form → ∃ c, s.views[w.index]? = some c ∧ c.target = .list l ∧ c.form = form := by
    intro s hs
    obtain ⟨c,hc,hform,htarget⟩ := hs.view
    exact ⟨c,hc,htarget,hform⟩
  have hnone : change.takesList = true → form ≠ .document ∧ form ≠ .decorators := by
    rw [(Change.single_passes hsingle).2]
    exact fun h => by cases h
  have hF := Change.frame_of_error stable_lineView h.view h.shown (fun x hx => (h.lines x hx).node) hnone hview
    (Edit.Meets.weaken (itemsFromEach_lines h.view hsound) (fun _ h => h) (fun _ _ _ => trivial))
    (expectedItems_lineView (fun n h => by cases h)) (alignSeparators_lines h.view.lineBased) hrun
  exact ⟨⟨stable_lineView _ _ h.view hF,hshown,hbehind,fun x hx => (h.lines x hx).frame hF htype,
    fun x hx => (h.items x hx).frame hF htype⟩,hF⟩

theorem LineCalls.keeps {fine : Store → Prop} {I : Store → List Value → List Value → Prop}
    (hcalls : LineCalls fine p w l s t) (h : LinesAt s w l form D L) (hI : I s D L)
    (hframe : ∀ {s t D L}, LinesAt s w l form D L → s.Frame (.editing w l) t → I s D L → I t D L)
    (hpass : ∀ {s u dir D D' L E plan}, LinesPassed w l form D' L dir s u E plan → LinesAt u w l form D' plan.result →
      (∀ x ∈ L, u.Typed x) → dir.moves D D' → fine u → I u D L → I u D' plan.result) :
    ∃ D' L', LinesAt t w l form D' L' ∧ I t D' L' := by
  have htype := Freedom.editing_type w l
  induction hcalls with
  | none => exact ⟨D,L,h,hI⟩
  | done _ hsingle hsound hrun hfine ih =>
    obtain ⟨D₁,L₁,h₁,hI₁⟩ := ih
    obtain ⟨_,_,D₂,_,plan,-,hmakes,hF,hpassed,h₂⟩ := h₁.call hsingle hsound hrun
    have hitems : ∀ x ∈ L₁, _ := fun x hx => (h₁.items x hx).frame hF htype
    exact ⟨D₂,plan.result,h₂,hpass hpassed h₂ hitems (hmakes.moves hsingle) hfine (hframe h₁ hF hI₁)⟩
  | failed _ hsingle hsound hrun hshown hbehind ih =>
    obtain ⟨D₁,L₁,h₁,hI₁⟩ := ih
    obtain ⟨h₂,hF⟩ := h₁.failed hsingle hsound hrun (hshown D₁ h₁.shown) (hbehind L₁ h₁.behind)
    exact ⟨D₁,L₁,h₂,hframe h₁ hF hI₁⟩

end Steps

section Fresh
variable {D L vs : List Value}

/-- A view shows the statements of a list, in their order, and nothing that is not in it. -/
theorem lineItems_statements {previous : Value} (h : lineItems leading previous vs s = .ok shown) :
    s.statements shown = s.statements vs ∧ ∀ x ∈ shown, x ∈ vs ∨ x = previous ∧ truth previous s = .ok true := by
  induction vs generalizing previous shown with
  | nil =>
    cases h
    exact ⟨rfl,by simp⟩
  | cons v rest ih =>
    have hrest : ∀ {others}, lineItems leading v rest s = .ok others →
        s.statements others = s.statements rest ∧ ∀ x ∈ others, x ∈ v :: rest := by
      intro others hothers
      obtain ⟨hsame,hmem⟩ := ih hothers
      refine ⟨hsame,fun x hx => ?_⟩
      rcases hmem x hx with hx | ⟨rfl,-⟩
      · exact List.mem_cons_of_mem _ hx
      · exact List.mem_cons_self
    have hcons : ∀ {y others}, lineItems leading v rest s = .ok others →
        s.statements (y :: others) = (sepKey "endl" s y).toList ++ s.statements rest := by
      intro y others hothers
      rw [← (hrest hothers).1]
      cases hy : sepKey "endl" s y <;> simp [Store.statements,hy]
    have hall : s.statements (v :: rest) = (sepKey "endl" s v).toList ++ s.statements rest := by
      cases hv : sepKey "endl" s v <;> simp [Store.statements,hv]
    unfold lineItems at h
    obtain ⟨b,hb,h⟩ := Read.bind_ok.mp h
    cases b with
    | false =>
      obtain ⟨others,hothers,h⟩ := Read.bind_ok.mp h
      cases h
      refine ⟨(hcons hothers).trans hall.symm,fun x hx => .inl ?_⟩
      rcases List.mem_cons.mp hx with rfl | hx
      · exact List.mem_cons_self
      · exact (hrest hothers).2 x hx
    | true =>
      have hv : sepKey "endl" s v = none := by
        unfold sepKey
        rw [hb]
      rw [hall,hv]
      obtain ⟨asked,hasked,h⟩ := Read.bind_ok.mp h
      have hgo : ∀ blank : Bool, (blank = true → sepKey "endl" s previous = none ∧ truth previous s = .ok true) →
          (if blank = true then do return previous :: (← lineItems leading v rest)
            else if (leading && previous.isNone) = true then do return v :: (← lineItems leading v rest)
            else lineItems leading v rest : Read (List Value)) s = .ok shown →
          s.statements shown = [] ++ s.statements rest ∧
            ∀ x ∈ shown, x ∈ v :: rest ∨ x = previous ∧ truth previous s = .ok true := by
        intro blank hblank h
        split at h
        · next hb =>
          obtain ⟨others,hothers,h⟩ := Read.bind_ok.mp h
          cases h
          obtain ⟨hkey,htruth⟩ := hblank hb
          refine ⟨by rw [hcons hothers,hkey]; rfl,fun x hx => ?_⟩
          rcases List.mem_cons.mp hx with rfl | hx
          · exact .inr ⟨rfl,htruth⟩
          · exact .inl ((hrest hothers).2 x hx)
        · split at h
          · obtain ⟨others,hothers,h⟩ := Read.bind_ok.mp h
            cases h
            refine ⟨by rw [hcons hothers,hv]; rfl,fun x hx => .inl ?_⟩
            rcases List.mem_cons.mp hx with rfl | hx
            · exact List.mem_cons_self
            · exact (hrest hothers).2 x hx
          · exact ⟨(hrest h).1,fun x hx => .inl ((hrest h).2 x hx)⟩
      cases asked with
      | false => exact hgo false (fun hb => by cases hb) h
      | true =>
        obtain ⟨blank,hblank,h⟩ := Read.bind_ok.mp h
        refine hgo blank (fun hb => ⟨?_,hasked⟩) h
        subst hb
        unfold sepKey
        rw [hblank]

theorem Kept.types (hs : Kept (buildEach ds parent place) p a b vs s) (ht : Kept (buildEach ds parent place) p a b vs t) :
    ∀ x ∈ vs, ∃ k type, s.Goes x k type ∧ t.Goes x k type := by
  intro x hx
  obtain ⟨_,⟨n,_,rfl,-⟩,-⟩ := hs.all_honest x hx
  obtain ⟨i,hi⟩ := List.getElem?_of_mem hx
  obtain ⟨d,_,_,hd,hn,-⟩ := hs.member hi
  obtain ⟨d',_,_,hd',hn',-⟩ := ht.member hi
  cases hd.symm.trans hd'
  obtain ⟨fields,k,c,rfl,hg⟩ := hn.grown
  obtain ⟨fields',k',c',heq,hg'⟩ := hn'.grown
  cases heq
  have hword : k.word = k'.word := by
    have hnamed := hg.named.symm.trans hg'.named
    simpa using hnamed
  obtain rfl : k = k' := by
    have hknown := hg.known
    rw [hword,hg'.known] at hknown
    exact (Option.some.inj hknown).symm
  exact ⟨k,_,⟨n,c,rfl,hg.cell,hg.kind,hg.type⟩,⟨n,c',rfl,hg'.cell,hg'.kind,hg'.type⟩⟩

/-- The lines that a view was made to show of a row that is still as it was built. -/
theorem Kept.lines (hs : Kept (buildEach ds parent place) p a b vs s) (ht : Kept (buildEach ds parent place) p a b vs t)
    (h : lineItems leading .none vs s = .ok shown) :
    (∀ x ∈ vs, t.Typed x) ∧ (∀ x ∈ shown, t.Typed x) ∧ t.statements vs = t.statements shown := by
  obtain ⟨hsame,hmem⟩ := lineItems_statements h
  have hshown : ∀ x ∈ shown, x ∈ vs := by
    intro x hx
    rcases hmem x hx with hx | ⟨-,htruth⟩
    · exact hx
    · cases htruth
  have htyped : ∀ x ∈ vs, t.Typed x := by
    intro x hx
    obtain ⟨k,type,-,hgoes⟩ := hs.types ht x hx
    exact ⟨k,type,hgoes⟩
  have hkeys : ∀ x ∈ vs, sepKey "endl" t x = sepKey "endl" s x := by
    intro x hx
    obtain ⟨k,type,hgoes,hgoes'⟩ := hs.types ht x hx
    rw [hgoes.sepKey,hgoes'.sepKey]
  refine ⟨htyped,fun x hx => htyped x (hshown x hx),?_⟩
  have hall : t.statements vs = s.statements vs := List.filterMap_congr hkeys
  have hpart : t.statements shown = s.statements shown := List.filterMap_congr (fun x hx => hkeys x (hshown x hx))
  rw [hall,hpart,hsame]

/-- The lines of a document, or of a block that keys lead to in it, with the list behind them. -/
inductive Store.Lines (s : Store) (top : ViewId) : ViewId → ListId → ViewForm → Prop
  | document {root : ListId} (behind : behind (.view top) s = .ok (.list root)) : Store.Lines s top top root .document
  | block {root : ListId} {keys : List Key} {n : NodeId} {c : NodeCell} {w : ViewId} {l : ListId}
    (rooted : behind (.view top) s = .ok (.list root)) (above : s.Reaches root keys (.node n))
    (cell : s.nodes[n.index]? = some c) (kind : c.kind.hasBlock = true) (stored : c.stored? (.field .value) = some (.view w))
    (behind : behind (.view w) s = .ok (.list l)) : Store.Lines s top w l .lines

section Shown
variable {k : Kind} {fields : List (String × Datum)} {f : Field} (hg : Grown p s a b n parent place fields k c)
  (hstored : c.stored? (.field f) = some (.view w))
include hg hstored

/-- What a view that a built node holds shows was found when the row behind it had just been built. -/
theorem Grown.view_shown : ∃ form l vs shown style ds x e u, k.viewForm f = some form ∧
      s.views[w.index]? = some ⟨form,.list l,shown,some (.field f),none,style,[]⟩ ∧
      s.lists[l.index]? = some ⟨.nodes,vs,.node n,some (.field f),[]⟩ ∧
      Kept (buildEach ds (.node n) (some (.field f))) p x e vs s ∧
      Kept (buildEach ds (.node n) (some (.field f))) p x e vs u ∧
      u.lists[l.index]? = some ⟨.nodes,vs,.node n,some (.field f),[]⟩ ∧ Viewed u form (.list l) shown style := by
  have hdata : ∀ d, Value.view w ≠ .ofDatum d := fun d h => by cases d <;> cases h
  obtain ⟨slotForm,slotShown,hslot⟩ := mem_slotFields (hg.slot_of_view hstored)
  obtain ⟨-,-,d,x,y,-,-,hh⟩ := hg.holds hslot hstored hdata (fun _ _ h => by cases h)
  have hlist : HoldsList p s n k f d x y (.view w) := by
    have htext : .view w ≠ k.keeps f (.ofDatum d) := by
      obtain ⟨e,he⟩ := k.keeps_ofDatum f d
      rw [he]
      exact hdata e
    cases slotForm with
    | children => exact hh
    | formatting => exact hh
    | child =>
      simp only [Holds,HoldsChild] at hh
      split at hh
      · obtain ⟨_,_,-,heq,-⟩ := hh
        cases heq
      · cases hh
    | text => exact absurd hh htext
    | flag => exact absurd hh htext
  obtain ⟨vs,e,-,hkept,-,hlist,hshows⟩ := hlist
  obtain ⟨form,hview⟩ : ∃ form, k.viewForm f = some form := by
    cases hview : k.viewForm f with
    | some form => exact ⟨form,rfl⟩
    | none =>
      rw [hview] at hshows
      cases hshows
  rw [hview] at hshows
  obtain ⟨u,w',shown,style,heq,-,-,hcell,hviewed,hagree⟩ := hshows
  cases heq
  obtain ⟨ds,hrow,-⟩ := hkept.items
  have hle : e ≤ ⟨e.nodes,e.lists + 1,e.views⟩ := ⟨Nat.le_refl _,Nat.le_succ _,Nat.le_refl _⟩
  have hsame := hagree.lists e.lists (hkept.le (buildItems_adds _ _ _)).2.1 (Nat.lt_succ_self _)
  exact ⟨form,_,vs,shown,style,ds,x,e,u,hview,hcell,hlist,hrow,hrow.agree (hagree.narrow (Mark.le_refl x) hle).symm,
    hsame.symm.trans hlist,hviewed⟩

theorem Grown.view_lines (hview : k.viewForm f = some form) (hform : form.lineBased = true) :
    ∃ l vs shown style ds x e u, s.views[w.index]? = some ⟨form,.list l,shown,some (.field f),none,style,[]⟩ ∧
      s.lists[l.index]? = some ⟨.nodes,vs,.node n,some (.field f),[]⟩ ∧
      Kept (buildEach ds (.node n) (some (.field f))) p x e vs s ∧
      Kept (buildEach ds (.node n) (some (.field f))) p x e vs u ∧ lineItems false .none vs u = .ok shown := by
  obtain ⟨form',l,vs,shown,style,ds,x,e,u,hview',hcell,hlist,hrow,hrow',hu,hviewed⟩ := hg.view_shown hstored
  cases hview.symm.trans hview'
  obtain ⟨all,hall,hlines⟩ := hviewed.lines hform
  obtain ⟨lc,hlc,rfl⟩ := items_list_ok.mp hall
  cases hlc.symm.trans hu
  exact ⟨l,_,shown,style,ds,x,e,u,hcell,hlist,hrow,hrow',hlines⟩

end Shown

theorem Grown.block (hg : Grown p s a b n parent place fields c.kind c)
    (hkind : c.kind.hasBlock = true) (hstored : c.stored? (.field .value) = some (.view w))
    (hbehind : behind (.view w) s = .ok (.list l)) : ∃ D L, LinesAt s w l .lines D L ∧ s.statements L = s.statements D := by
  have hview : c.kind.viewForm .value = some .lines := by simp [Kind.viewForm,hkind]
  obtain ⟨l',vs,shown,style,ds,x,e,u,hcell,hlist,hrow,hrow',hlines⟩ := hg.view_lines hstored hview rfl
  cases hbehind.symm.trans (behind_view hcell rfl)
  obtain ⟨hvs,hshown,hstatements⟩ := hrow'.lines hrow hlines
  exact ⟨shown,vs,⟨.block ⟨⟨_,hcell,rfl,rfl,rfl⟩,⟨_,hlist,rfl,rfl,rfl⟩,⟨c,hg.cell,rfl⟩,hview⟩,⟨_,hcell,rfl⟩,
    ⟨_,hlist,rfl,rfl⟩,hshown,hvs⟩,hstatements⟩

theorem newDocument_lines {source : String} {s₀ : Store} {top : ViewId} (h : newDocument source p s₀ = .ok (.view top) s)
    (hlines : s.Lines top w l form) : ∃ D L, LinesAt s w l form D L ∧ s.statements L = s.statements D := by
  cases hlines with
  | @document root hbehind =>
    obtain ⟨d,top',root',a,b,vs,shown,-,heq,hkept,-,hlist,hview,-,u,hlines,hagree⟩ := newDocument_made h
    cases heq
    cases hbehind.symm.trans (behind_view hview rfl)
    obtain ⟨ds,hrow,-⟩ := hkept.items
    obtain ⟨hvs,hshown,hstatements⟩ := (hrow.agree hagree.symm).lines hrow hlines
    exact ⟨shown,vs,⟨.document hview rfl rfl,⟨_,hview,rfl⟩,⟨_,hlist,rfl,rfl⟩,hshown,hvs⟩,hstatements⟩
  | @block root keys n c _ _ rooted above cell kind stored hbehind =>
    obtain ⟨_,_,_,_,_,hg,-⟩ := newDocument_planted h rooted above cell
    exact hg.block kind stored hbehind

end Fresh

/-- What a call leaves of the statements: of the list as it was, of the view as it is and of the list as it is. -/
structure LinesLeft (u : Store) (form : ViewForm) (dir : Direction) (L₁ D₂ L₂ : List Value) : Prop where
  taken : dir = .taking → u.statements L₂ <+: u.expects form D₂ ∧
    (u.statements L₂ = u.statements D₂ ↔ u.Unbroken D₂ ∧ u.Separated form L₁ D₂)
  added : dir = .adding → ∃ rest, rest <:+ L₁ ∧ u.statements L₂ = u.expects form D₂ ++ u.statements rest ∧
    (u.Unbroken D₂ → (u.statements L₂ = u.statements D₂ ↔
      ((L₁.rdropWhile u.blank).map (lineKey D₂ u)).Sublist (u.wanted form D₂)))

theorem LinesPassed.left {L E : List Value} {plan : Plan Value} (h : LinesPassed w l form D L dir s t E plan) :
    LinesLeft t form dir L D plan.result where
  taken hdir := by
    subst hdir
    exact h.taken
  added hdir := by
    subst hdir
    exact h.added_statements

/-- Every call that puts in one line or takes some out of a new document or a block in it, whatever such calls came
before it, does to the lines what it does to an ordinary list. Whether the list behind them has the same statements
after it can be read off the list before it and the lines. Taking out goes well for as long as no blank line comes to
stand right behind a class, if the list had its line ends to begin with, and putting in for as long as there are no
blank lines, if it had no other line ends. -/
theorem run_lines_statements {source : String} {s₀ : Store} {top : ViewId} {fine : Store → Prop} {change : Change}
    {dir : Direction} (h : newDocument source p s₀ = .ok (.view top) s) (hlines : s.Lines top w l form)
    (hcalls : LineCalls fine p w l s t) (hsingle : change.single = some dir)
    (hsound : ∀ v ∈ change.values t, t.Sound "endl" v) (hrun : change.run w p t = .ok () u) (hfine : fine u) :
    ∃ D₀ L₀ D₁ L₁ xs t' D₂ L₂, LinesAt s w l form D₀ L₀ ∧ s.statements L₀ = s.statements D₀ ∧
      LinesAt t w l form D₁ L₁ ∧ itemsFromEach w (change.values t) p t = .ok xs t' ∧ change.Makes D₁ xs D₂ ∧
      LinesAt u w l form D₂ L₂ ∧ LinesLeft u form dir L₁ D₂ L₂ ∧
      ((∀ v D, fine v → v.ShowsItems w D → v.Unbroken D) → s.Separated form L₀ D₀ → dir = .taking →
        u.statements L₂ = u.statements D₂) ∧
      ((∀ v D, fine v → v.ShowsItems w D → v.Solid D) → s.Tight form L₀ D₀ → dir = .adding →
        u.statements L₂ = u.statements D₂) := by
  obtain ⟨D₀,L₀,h₀,hstatements⟩ := newDocument_lines h hlines
  have htype := Freedom.editing_type w l
  -- Each of the two conditions is kept by the calls on its own.
  obtain ⟨D₁,L₁,h₁,hseparated,htight⟩ := hcalls.keeps (I := fun v D L =>
    ((∀ v D, fine v → v.ShowsItems w D → v.Unbroken D) → s.Separated form L₀ D₀ → v.Separated form L D) ∧
    ((∀ v D, fine v → v.ShowsItems w D → v.Solid D) → s.Tight form L₀ D₀ → v.Tight form L D)) h₀
    ⟨fun _ h => h,fun _ h => h⟩
    (fun h hF hI => ⟨fun hall hs => (hI.1 hall hs).frame h.lines hF htype h.items,
      fun hall hs => (hI.2 hall hs).frame h.lines hF htype h.items⟩)
    (by
      intro s' v dir D D' L E plan hpassed hat hL hmoves hv hI
      constructor
      · intro hall hs
        have hD := hall v D' hv hat.shown
        cases dir with
        | adding => exact hpassed.added_separated hD
        | taking => exact hpassed.taken_separated hD ((hI.1 hall hs).takes hmoves)
      · intro hall hs
        have hD := hall v D' hv hat.shown
        cases dir with
        | adding => exact (hpassed.added_tight hD hat.lines hL ((hI.2 hall hs).adds hmoves)).2
        | taking => exact hpassed.taken_tight hD.unbroken)
  obtain ⟨xs,t',D₂,E,plan,hxs,hmakes,hF,hpassed,h₂⟩ := h₁.call hsingle hsound hrun
  have hmoves := hmakes.moves hsingle
  refine ⟨D₀,L₀,D₁,L₁,xs,t',D₂,plan.result,h₀,hstatements,h₁,hxs,hmakes,h₂,hpassed.left,?_,?_⟩
  · rintro hall hs rfl
    have hL := (hseparated hall hs).frame h₁.lines hF htype h₁.items
    exact hpassed.taken.2.mpr ⟨hall u D₂ hfine h₂.shown,hL.takes hmoves⟩
  · rintro hall hs rfl
    have hL := (htight hall hs).frame h₁.lines hF htype h₁.items
    exact (hpassed.added_tight (hall u D₂ hfine h₂.shown) h₂.lines
      (fun x hx => (h₁.items x hx).frame hF htype) (hL.adds hmoves)).1

/-- A parser that takes every text for three loops, each with its line end in its own block. -/
def loopsParser : Parser := fun _ => .ok (.list [loopLine,loopLine,loopLine])

/-- Of three loops, taking out the first takes the last one with it: there are no line ends between them. -/
theorem run_lines_statements_loops : ∃ top root s u D₀ L₀ D L,
    newDocument "while a: b\nwhile a: b\nwhile a: b\n" loopsParser .empty = .ok (.view top) s ∧
    (Change.pop (some 0)).run top loopsParser s = .ok () u ∧ LinesAt s top root .document D₀ L₀ ∧
    LinesAt u top root .document D L ∧ (u.statements D).length = 2 ∧ (u.statements L).length = 1 ∧
    ¬ (u.Unbroken D ∧ u.Separated .document L₀ D) := by
  have hruns : (newDocument "while a: b\nwhile a: b\nwhile a: b\n").ensures loopsParser .empty (fun v s => v.is (.view ⟨0⟩) &&
      ((Change.pop (some 0)).run ⟨0⟩).ensures loopsParser s (fun _ u =>
        (u.views[0]?).any (fun c => c.target.is (.list ⟨15⟩) && (u.statements c.items).length == 2) &&
        (u.lists[15]?).any (fun lc => (u.statements lc.items).length == 1))) = true := by decide +kernel
  obtain ⟨v,s,hdoc,hruns⟩ := Edit.ensures_iff.mp hruns
  obtain ⟨hv,hruns⟩ := Bool.and_eq_true_iff.mp hruns
  obtain ⟨_,u,hpop,hcounts⟩ := Edit.ensures_iff.mp hruns
  obtain rfl := Value.is_view.mp hv
  simp only [Bool.and_eq_true,Option.any_eq_true,beq_iff_eq,Value.is_list] at hcounts
  obtain ⟨⟨c,hc,hroot,hD⟩,lc,hl,hL⟩ := hcounts
  obtain ⟨-,-,root,-,-,hbehind,-,-⟩ := newDocument_written hdoc
  have hnone : LineCalls (fun _ => True) loopsParser ⟨0⟩ root s s := .none
  obtain ⟨_,_,D₁,L₁,_,_,D,L,-,-,h₁,-,-,h₂,hcall,-,-⟩ := run_lines_statements hdoc (.document hbehind) hnone rfl
    (by simp [Change.values]) hpop trivial
  obtain ⟨d,hd,-,htarget⟩ := h₂.view.view
  obtain ⟨d',hd',rfl⟩ := h₂.shown
  obtain ⟨lc,hlc,-,rfl⟩ := h₂.behind
  cases hc.symm.trans hd
  cases hc.symm.trans hd'
  cases hroot.symm.trans htarget
  cases hl.symm.trans hlc
  refine ⟨⟨0⟩,⟨15⟩,s,u,D₁,L₁,c.items,lc.items,hdoc,hpop,h₁,h₂,hD,hL,fun hboth => ?_⟩
  have heq := (hcall.taken rfl).2.mpr hboth
  rw [heq,hD] at hL
  cases hL

end CodeTree
