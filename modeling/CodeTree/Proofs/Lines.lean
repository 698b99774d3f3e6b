import CodeTree.Proofs.CommaRuns
import Mathlib.Data.List.Chain
import Mathlib.Data.List.DropRight

/-! # Lines

What is expected in a list of lines, and what the two passes leave of its statements. A line end has no key of its
own, so the pass that takes away can take one for another; the pass that adds tells the blank lines among the items
of the view from all other line ends.
-/
namespace CodeTree
variable {p : Parser} {s t : Store} {F : Freedom} {K : Store → Prop} {es : List Value} {l : ListId} {n : NodeId} {v : Value}
  {form : ViewForm} {w : ViewId}

section Scans
variable {α β κ : Type} {plan : Plan α} {xs es : List α}

theorem filterMap_eq_of_keys {key : α → Option β} {ys ds : List α} (h : ys.map key = ds.map key) :
    ys.filterMap key = ds.filterMap key := by
  have hid : ∀ zs : List α, zs.filterMap key = (zs.map key).filterMap id := fun zs => by
    rw [List.filterMap_map]
    rfl
  rw [hid,hid,h]

theorem filterMap_of_subset {key : α → Option β} {ys zs : List α} (h : zs ⊆ ys.rtakeWhile (fun y => (key y).isNone)) :
    zs.filterMap key = [] := by
  rw [List.filterMap_eq_nil_iff]
  intro z hz
  have hnone := List.mem_rtakeWhile_imp (h hz)
  exact Option.isNone_iff_eq_none.mp hnone

theorem filterMap_rdropWhile (key : α → Option β) (ys : List α) :
    (ys.rdropWhile (fun y => (key y).isNone)).filterMap key = ys.filterMap key := by
  conv_rhs => rw [← List.rdropWhile_append_rtakeWhile (p := fun y => (key y).isNone) (l := ys)]
  rw [List.filterMap_append,filterMap_of_subset (List.Subset.refl _),List.append_nil]

theorem rdropWhile_prefix_of_append {drop : α → Bool} {ys zs : List α} (h : ∀ z ∈ zs, drop z = true) :
    (ys ++ zs).rdropWhile drop <+: ys := by
  induction zs using List.reverseRecOn with
  | nil =>
    rw [List.append_nil]
    exact List.rdropWhile_prefix _ _
  | append_singleton zs z ih =>
    rw [← List.append_assoc,List.rdropWhile_concat,if_pos (h z (by simp))]
    exact ih (fun y hy => h y (by simp [hy]))

section Taking
variable {key : α → Option β} (h : Reduced key xs es plan)
  (hfits : ∀ {ys ds : List α}, List.Forall₂ plan.Fits ys ds → ys.map key = ds.map key)
include h hfits

theorem Reduced.items_prefix : plan.result.filterMap key <+: es.filterMap key := by
  obtain ⟨ds,fs,rfl,hds⟩ := h.split
  rw [List.filterMap_append,filterMap_eq_of_keys (hfits hds)]
  exact List.prefix_append _ _

theorem Reduced.items_eq_iff :
    plan.result.filterMap key = es.filterMap key ↔ ((es.map key).rdropWhile Option.isNone).Sublist (xs.map key) := by
  have hbegins := h.isPrefix_keys hfits
  have hid : ∀ zs : List α, zs.filterMap key = (zs.map key).filterMap id := fun zs => by
    rw [List.filterMap_map]
    rfl
  constructor
  · intro heq
    obtain ⟨rest,hrest⟩ := hbegins
    have hnone : ∀ k ∈ rest, k.isNone = true := by
      rw [hid,hid,← hrest,List.filterMap_append,List.self_eq_append_right,List.filterMap_eq_nil_iff] at heq
      exact fun k hk => Option.isNone_iff_eq_none.mpr (heq k hk)
    rw [← hrest]
    exact (rdropWhile_prefix_of_append hnone).sublist.trans (h.sublist.map key)
  · intro hsub
    have hlong := h.longest _ (List.rdropWhile_prefix _ _) hsub
    refine (h.items_prefix hfits).eq_of_length_le ?_
    have hle := (hlong.filterMap id).length_le
    rw [hid,hid]
    exact (filterMap_rdropWhile id (es.map key)) ▸ hle

end Taking

/-- Adding leaves the items that are expected and then those that it could not place. There are none of these exactly
if the list, up to its last item, has a place among what is expected. -/
theorem Augmented.items {key : α → κ} {base : α → Option β} (h : Augmented key xs es plan)
    (hfits : ∀ {ys ds : List α}, List.Forall₂ plan.Fits ys ds → ys.map key = ds.map key) (through : κ → Option β)
    (hbase : ∀ x, base x = through (key x)) :
    ∃ rest, rest <:+ xs ∧ plan.result.map base = es.map base ++ rest.map base ∧
      (rest.filterMap base = [] ↔ ((xs.rdropWhile (fun x => (base x).isNone)).map key).Sublist (es.map key)) := by
  obtain ⟨placed,ys,zs,hxs,hresult,hys,hplaced,hlongest⟩ := h.split
  have hsame : ys.map base = es.map base := by
    have hthrough : base = through ∘ key := funext hbase
    rw [hthrough,← List.map_map,← List.map_map,hfits hys]
  refine ⟨zs,hxs ▸ List.suffix_append _ _,?_,?_,?_⟩
  · rw [hresult,List.map_append,hsame]
  · intro hnone
    rw [List.filterMap_eq_nil_iff] at hnone
    have hbegins : xs.rdropWhile (fun x => (base x).isNone) <+: placed := by
      rw [hxs]
      exact rdropWhile_prefix_of_append (fun z hz => Option.isNone_iff_eq_none.mpr (hnone z hz))
    exact (hbegins.sublist.map key).trans hplaced
  · intro hsub
    have hsplit := (List.rdropWhile_append_rtakeWhile (p := fun x => (base x).isNone) (l := xs)).symm
    have hsuffix := hlongest _ _ hsplit hsub
    exact filterMap_of_subset hsuffix.subset

end Scans

section Wanted
variable {blank brings : Value → Bool} {D : List Value}

/-- The keys of what is expected for some lines after others, where a line end that is made for the occasion has
none. A blank line takes the place of the line end before it, and some lines bring their line end with them. -/
def wantedAfter (blank brings : Value → Bool) : Bool → List (Option Value) → List Value → List (Option Value)
  | _, done, [] => done
  | first, done, v :: rest =>
    let before := if blank v && !first then done.dropLast else done
    if (blank v && first) || brings v then wantedAfter blank brings false (before ++ [some v]) rest
    else wantedAfter blank brings false (before ++ [some v,none]) rest

/-- The keys of a line and of the line end that comes with it, where a blank line is a line end like any other. -/
def lineParts (blank brings : Value → Bool) (x : Value) : List (Option Value) :=
  if blank x then [none] else if brings x then [some x] else [some x,none]

theorem wantedAfter_solid (h : ∀ x ∈ D, blank x = false) (first : Bool) (done : List (Option Value)) :
    wantedAfter blank brings first done D = done ++ D.flatMap (lineParts blank brings) := by
  induction D generalizing first done with
  | nil => simp [wantedAfter]
  | cons v rest ih =>
    have hblank := h v List.mem_cons_self
    have hrest := ih (List.forall_mem_cons.mp h).2
    unfold wantedAfter
    cases hbrings : brings v <;> simp [lineParts,hblank,hbrings,hrest]

/-- No blank line follows a line that brings its line end. -/
def Unbroken (blank brings : Value → Bool) (D : List Value) : Prop :=
  D.IsChain (fun x y => brings x = true → blank y = false)

section Statements
variable {base : Value → Option Value}

theorem wantedAfter_cons (blank brings : Value → Bool) (base : Value → Option Value) (first : Bool)
    (done : List (Option Value)) (v : Value) (rest : List Value) : ∃ done', wantedAfter blank brings first done (v :: rest) = wantedAfter blank brings false done' rest ∧
      (done'.filterMap (·.bind base) ++ rest.filterMap base).Sublist
        (done.filterMap (·.bind base) ++ (v :: rest).filterMap base) := by
  have hadds : ∀ before after : List (Option Value), before.Sublist done →
      after.filterMap (·.bind base) = [v].filterMap base →
      ((before ++ after).filterMap (·.bind base) ++ rest.filterMap base).Sublist
        (done.filterMap (·.bind base) ++ (v :: rest).filterMap base) := by
    intro before after hsub hafter
    rw [List.filterMap_append,hafter,List.append_assoc,← List.filterMap_append,List.singleton_append]
    exact (hsub.filterMap _).append (List.Sublist.refl _)
  have hdrop : (if blank v && !first then done.dropLast else done).Sublist done := by
    split
    · exact List.dropLast_sublist done
    · exact List.Sublist.refl _
  rw [wantedAfter]
  split
  · exact ⟨_,rfl,hadds _ [some v] hdrop rfl⟩
  · refine ⟨_,rfl,hadds _ [some v,none] hdrop ?_⟩
    cases hv : base v <;> simp [hv]

theorem wantedAfter_sublist (blank brings : Value → Bool) (base : Value → Option Value) (first : Bool)
    (done : List (Option Value)) (D : List Value) :
    ((wantedAfter blank brings first done D).filterMap (·.bind base)).Sublist
      (done.filterMap (·.bind base) ++ D.filterMap base) := by
  induction D generalizing first done with
  | nil => simp [wantedAfter]
  | cons v rest ih =>
    obtain ⟨done',hstep,hsub⟩ := wantedAfter_cons blank brings base first done v rest
    rw [hstep]
    exact (ih false done').trans hsub

variable (hbase : ∀ x, base x = if blank x then none else some x) (hsorts : ∀ x, brings x = true → blank x = false)
include hbase hsorts

/-- What is expected is the lines with their line ends, unless a blank line takes the place of a line. -/
theorem wantedAfter_keys (hD : Unbroken blank brings D) {first : Bool} {done : List (Option Value)}
    (hstart : first = false → done = [] → ∀ y ∈ D.head?, blank y = false)
    (hdone : ∀ k ∈ done.getLast?, ∀ y ∈ D.head?, blank y = true → k.bind base = none) :
    (wantedAfter blank brings first done D).map (·.bind base) =
      done.map (·.bind base) ++ D.flatMap (lineParts blank brings) := by
  induction D generalizing first done with
  | nil => simp [wantedAfter]
  | cons v rest ih =>
    have hnext : ∀ {before : List (Option Value)} {k : Option Value},
        (∀ y ∈ rest.head?, blank y = true → k.bind base = none) →
        (wantedAfter blank brings false (before ++ [k]) rest).map (·.bind base) =
          before.map (·.bind base) ++ [k.bind base] ++ rest.flatMap (lineParts blank brings) := by
      intro before k hk
      rw [ih hD.tail (fun _ h => absurd h (by simp)) ?_,List.map_append,List.map_singleton]
      intro k' hk'
      rw [List.getLast?_concat] at hk'
      obtain rfl : k = k' := Option.some.inj hk'
      exact hk
    have hended : ∀ before : List (Option Value),
        (wantedAfter blank brings false (before ++ [some v,none]) rest).map (·.bind base) =
          before.map (·.bind base) ++ [base v,none] ++ rest.flatMap (lineParts blank brings) := by
      intro before
      rw [List.append_cons,hnext (fun _ _ _ => rfl)]
      simp
    have hv := hbase v
    unfold wantedAfter
    rw [List.flatMap_cons,lineParts]
    cases hblank : blank v with
    | true =>
      have hbrings : brings v = false := by
        rw [Bool.eq_false_iff]
        intro h
        simp [hsorts v h] at hblank
      rw [hblank] at hv
      cases first with
      | true => simp [hbrings,hnext,hv]
      | false =>
        -- The line end before a blank line makes room for the one after it.
        have hne : done ≠ [] := fun h => by simp [hstart rfl h v rfl] at hblank
        obtain ⟨init,k,rfl⟩ := (List.eq_nil_or_concat' done).resolve_left hne
        have hk : k.bind base = none := hdone k (by simp) v rfl hblank
        simp [hbrings,hended,hv,hk]
    | false =>
      rw [hblank] at hv
      cases hbrings : brings v with
      | true =>
        have hhead : ∀ y ∈ rest.head?, blank y = true → (some v).bind base = none := by
          intro y hy hyblank
          have hy' := hD.rel_head? hy hbrings
          simp [hy'] at hyblank
        simp [hnext hhead,hv]
      | false => simp [hended,hv]

/-- If one does, what is expected has fewer statements than the items. -/
theorem wantedAfter_broken (hD : ¬ Unbroken blank brings D) (first : Bool) (done : List (Option Value)) :
    ((wantedAfter blank brings first done D).filterMap (·.bind base)).length <
      (done.filterMap (·.bind base) ++ D.filterMap base).length := by
  induction D generalizing first done with
  | nil => exact absurd .nil hD
  | cons v rest ih =>
    by_cases hrest : Unbroken blank brings rest
    · -- The blank line comes right after this one and takes its place.
      have hbreak : ¬ ∀ y ∈ rest.head?, brings v = true → blank y = false := fun h => hD (hrest.cons h)
      obtain ⟨y,hy,hbrings,hyblank⟩ : ∃ y, y ∈ rest.head? ∧ brings v = true ∧ blank y = true := by
        by_contra hnone
        refine hbreak (fun y hy hbrings => ?_)
        rw [Bool.eq_false_iff]
        exact fun hyblank => hnone ⟨y,hy,hbrings,hyblank⟩
      obtain ⟨rest,rfl⟩ := List.head?_eq_some_iff.mp hy
      have hv : base v = some v := by rw [hbase,hsorts v hbrings]; rfl
      have hyb : base y = none := by rw [hbase,hyblank]; rfl
      have hys : brings y = false := by
        rw [Bool.eq_false_iff]
        intro h
        simp [hsorts y h] at hyblank
      have hshift : wantedAfter blank brings first done (v :: y :: rest) =
          wantedAfter blank brings false (done ++ [some y,none]) rest := by
        simp [wantedAfter,hbrings,hsorts v hbrings,hyblank,hys]
      have hle := (wantedAfter_sublist blank brings base false (done ++ [some y,none]) rest).length_le
      rw [hshift]
      simp [List.filterMap_append,hyb,hv] at hle ⊢
      omega
    · obtain ⟨done',hstep,hsub⟩ := wantedAfter_cons blank brings base first done v rest
      rw [hstep]
      exact Nat.lt_of_lt_of_le (ih hrest false done') hsub.length_le

end Statements

/-- What a list of lines begins with. In a document a blank line can come first. -/
def ViewForm.lead : ViewForm → List (Option Value)
  | .document => []
  | _ => [none]

/-- The keys of what is expected in a list of lines. -/
def ViewForm.wanted (form : ViewForm) (blank brings : Value → Bool) (D : List Value) : List (Option Value) :=
  wantedAfter blank brings (form == .document) form.lead D

theorem ViewForm.wanted_solid (form : ViewForm) (h : ∀ x ∈ D, blank x = false) :
    form.wanted blank brings D = form.lead ++ D.flatMap (lineParts blank brings) :=
  wantedAfter_solid h _ _

theorem ViewForm.wanted_sublist (form : ViewForm) (blank brings : Value → Bool) (base : Value → Option Value)
    (D : List Value) : ((form.wanted blank brings D).filterMap (·.bind base)).Sublist (D.filterMap base) := by
  have hsub := wantedAfter_sublist blank brings base (form == .document) form.lead D
  cases form <;> exact hsub

section Statements
variable {base : Value → Option Value} (hbase : ∀ x, base x = if blank x then none else some x)
  (hsorts : ∀ x, brings x = true → blank x = false)
include hbase hsorts

theorem ViewForm.wanted_keys (form : ViewForm) (hD : Unbroken blank brings D) :
    (form.wanted blank brings D).map (·.bind base) = form.lead ++ D.flatMap (lineParts blank brings) := by
  have hstart : (form == .document) = false → form.lead = [] → ∀ y ∈ D.head?, blank y = false := by cases form <;> simp [lead]
  have hlead : form.lead.map (·.bind base) = form.lead := by cases form <;> rfl
  have hlast : ∀ k ∈ form.lead.getLast?, ∀ y ∈ D.head?, blank y = true → k.bind base = none := by
    cases form <;> simp [lead]
  rw [wanted,wantedAfter_keys hbase hsorts hD hstart hlast,hlead]

omit hsorts in
theorem lineParts_statements (brings : Value → Bool) :
    (D.flatMap (lineParts blank brings)).filterMap id = D.filterMap base := by
  induction D with
  | nil => rfl
  | cons x D ih =>
    rw [List.flatMap_cons,List.filterMap_append,ih,lineParts,List.filterMap_cons,hbase x]
    cases blank x <;> cases brings x <;> rfl

theorem ViewForm.wanted_statements_iff (form : ViewForm) :
    (form.wanted blank brings D).filterMap (·.bind base) = D.filterMap base ↔ Unbroken blank brings D := by
  constructor
  · intro heq
    by_contra hD
    have hlt := wantedAfter_broken hbase hsorts hD (form == .document) form.lead
    have hlead : form.lead.filterMap (·.bind base) = [] := by cases form <;> rfl
    rw [hlead,List.nil_append] at hlt
    exact absurd hlt (Nat.not_lt_of_le (Nat.le_of_eq (congrArg List.length heq).symm))
  · intro hD
    refine (form.wanted_sublist blank brings base D).eq_of_length_le ?_
    have hlead : form.lead.filterMap id = [] := by cases form <;> rfl
    have hall := congrArg (List.filterMap id) (form.wanted_keys hbase hsorts hD)
    rw [List.filterMap_append,hlead,lineParts_statements hbase,List.filterMap_map] at hall
    exact Nat.le_of_eq (congrArg List.length hall).symm

end Statements

end Wanted

section Sorts
variable {v x : Value} {D : List Value}

/-- The statements of a list of lines. -/
def Store.statements (s : Store) (L : List Value) : List Value := L.filterMap (sepKey "endl" s)

/-- Whether a node is of the type of line ends. -/
def Store.blank (s : Store) (v : Value) : Bool := (sepKey "endl" s v).isNone

/-- Whether a node is of a type that is taken to bring its line end. -/
def Store.brings (s : Store) (v : Value) : Bool :=
  match typeOf v s with
  | .ok (.text type) => type == "function" || type == "class"
  | _ => false

/-- The key by which adding tells lines apart: a blank line among the items of the view is no line end. -/
def lineKey (D : List Value) (s : Store) (v : Value) : Option Value :=
  if D.any (·.is v) then some v else sepKey "endl" s v

theorem sepKey_endl (s : Store) (v : Value) : sepKey "endl" s v = if s.blank v then none else some v := by
  unfold Store.blank sepKey
  cases hasType v "endl" s with
  | error fault => rfl
  | ok b => cases b <;> rfl

theorem Store.blank_of_brings (h : s.brings v = true) : s.blank v = false := by
  unfold blank sepKey hasType
  unfold brings at h
  split at h
  · next type htype =>
    rw [Read.bind_known htype]
    have hne : (type == "endl") = false := by
      rcases Bool.or_eq_true_iff.mp h with h | h <;> rw [beq_iff_eq] at h <;> rw [h] <;> rfl
    dsimp only
    rw [hne]
    rfl
  · cases h

theorem sepKey_lineKey (D : List Value) (s : Store) (v : Value) :
    sepKey "endl" s v = (lineKey D s v).bind (sepKey "endl" s) := by
  unfold lineKey
  split
  · rfl
  · rw [sepKey_endl]
    cases hblank : s.blank v with
    | true => rfl
    | false => simp [sepKey_endl,hblank]

theorem lineKey_eq_none : lineKey D s v = none ↔ D.any (·.is v) = false ∧ sepKey "endl" s v = none := by
  unfold lineKey
  cases D.any (·.is v) <;> simp

theorem lineKey_eq_iff : lineKey D s v = lineKey D s x ↔ v = x ∨ (lineKey D s v = none ∧ lineKey D s x = none) := by
  have hown : ∀ {v y}, lineKey D s v = some y → y = v := by
    intro v y h
    unfold lineKey at h
    split at h
    · exact (Option.some.inj h).symm
    · exact sepKey_some h
  constructor
  · intro h
    cases hv : lineKey D s v with
    | none => exact .inr ⟨rfl,h.symm.trans hv⟩
    | some y => exact .inl ((hown hv).symm.trans (hown (h.symm.trans hv)))
  · rintro (rfl | ⟨hv,hx⟩)
    · rfl
    · rw [hv,hx]

theorem lineKey_of_mem (hx : x ∈ D) (hnode : s.Typed x) : lineKey D s x = some x := by
  unfold lineKey
  rw [if_pos]
  exact List.any_eq_true.mpr ⟨x,hx,(hnode.is_iff hnode).mpr rfl⟩

section Kept
variable (h : s.Typed v) (hF : s.Frame F t) (ht : F.KeepsTypes)
include h hF ht

theorem Store.blank_frame : t.blank v = s.blank v := congrArg Option.isNone (sepKey_frame h hF ht)

theorem Store.brings_frame : t.brings v = s.brings v := by
  obtain ⟨k,type,h⟩ := h
  unfold brings
  rw [h.typeOf,(h.frame hF ht).typeOf]

theorem lineKey_frame : lineKey D t v = lineKey D s v := by
  unfold lineKey
  rw [sepKey_frame h hF ht]

end Kept

theorem isAmong_ok (hD : ∀ x ∈ D, s.Typed x) (hv : s.Typed v) : isAmong v D s = .ok (D.any (·.is v)) := by
  have hfound : ∃ found, indexOf? v D s = .ok found ∧ found.isSome = D.any (·.is v) := by
    induction D with
    | nil => exact ⟨none,rfl,rfl⟩
    | cons x D ih =>
      obtain ⟨found,hfound,hsome⟩ := ih (List.forall_mem_cons.mp hD).2
      obtain ⟨_,_,n,_,rfl,-⟩ := hD x List.mem_cons_self
      obtain ⟨_,_,m,_,rfl,-⟩ := hv
      have hequal : equal (.node n) (.node m) s = .ok (n == m) := rfl
      simp only [indexOf?,Read.bind_known hequal,List.any_cons]
      cases hnm : n == m with
      | true => exact ⟨some 0,rfl,by simp [Value.is,hnm]⟩
      | false =>
        refine ⟨found.map (· + 1),?_,by simp [Value.is,hnm,hsome]⟩
        simp only [Bool.false_eq_true,if_false]
        rw [Read.bind_known hfound]
        rfl
  obtain ⟨found,hfound,hsome⟩ := hfound
  unfold isAmong
  rw [Read.bind_known hfound,hsome]
  rfl

theorem ViewForm.separator_of_lines (h : form.lineBased = true) : form.separator = "endl" := by
  cases form <;> first | rfl | cases h

/-- Adding compares lines by these keys. -/
theorem compares_lines {c : ViewCell} {xs : List Value} (hform : c.form.lineBased = true) (hD : ∀ x ∈ c.items, s.Typed x)
    (hxs : ∀ x ∈ xs, s.Typed x) (hes : ∀ e ∈ es, s.Typed e) :
    Compares (fun x e => judgeAdding c x e s) (lineKey c.items s) xs es := by
  intro x hx e he
  obtain ⟨b,hb,hiff⟩ := bothSeparate_ok c.form (hxs x hx) (hes e he)
  rw [ViewForm.separator_of_lines hform] at hiff
  have his := (hxs x hx).is_iff (hes e he)
  have hjudge : judgeAdding c x e s = .ok (if b && !c.items.any (·.is e) && !c.items.any (·.is x) then .paired
      else if x.is e then .same else .different) := by
    unfold judgeAdding
    rw [if_pos hform,Read.bind_known hb,Read.bind_known (isAmong_ok hD (hes e he)),
      Read.bind_known (isAmong_ok hD (hxs x hx))]
    split <;> rfl
  have hboth : (b && !c.items.any (·.is e) && !c.items.any (·.is x)) = true ↔
      lineKey c.items s x = none ∧ lineKey c.items s e = none := by
    rw [lineKey_eq_none,lineKey_eq_none,Bool.and_eq_true,Bool.and_eq_true,hiff,Bool.not_eq_true',Bool.not_eq_true']
    constructor
    · rintro ⟨⟨⟨h₁,h₂⟩,h₃⟩,h₄⟩
      exact ⟨⟨h₄,h₁⟩,h₃,h₂⟩
    · rintro ⟨⟨h₄,h₁⟩,h₃,h₂⟩
      exact ⟨⟨⟨h₁,h₂⟩,h₃⟩,h₄⟩
  refine ⟨_,hjudge,?_,?_⟩
  · intro hsame
    split at hsame
    · cases hsame
    · split at hsame
      · exact his.mp ‹_›
      · cases hsame
  · rw [ne_eq,lineKey_eq_iff,← hboth,← his]
    split
    · next h => simp [h]
    · next h => cases x.is e <;> simp [h]

end Sorts

section Expected
variable {P : Store → Value → Prop} {blank brings : Value → Bool} {D : List Value}

/-- What is expected for a key: the item itself, or something made for the occasion. -/
def Fulfils (P : Value → Prop) (e : Value) : Option Value → Prop
  | none => P e
  | some v => e = v

theorem Fulfils.imp {P Q : Value → Prop} {e : Value} {k : Option Value} (h : Fulfils P e k) (hPQ : ∀ v, P v → Q v) :
    Fulfils Q e k := by
  cases k with
  | none => exact hPQ e h
  | some v => exact h

theorem stable_fulfils (hP : ∀ v, Stable F (fun s => P s v)) (es : List Value) (ks : List (Option Value)) :
    Stable F (fun s => List.Forall₂ (Fulfils (P s)) es ks) :=
  fun s t hs hF => hs.imp (fun _ _ h => h.imp (fun v hv => hP v s t hv hF))

theorem fulfils_dropLast {P : Value → Prop} {ks : List (Option Value)} (h : List.Forall₂ (Fulfils P) es ks) :
    List.Forall₂ (Fulfils P) es.dropLast ks.dropLast := by
  rw [List.dropLast_eq_take,List.dropLast_eq_take,h.length_eq]
  exact List.forall₂_take _ h

/-- The lines that are expected after others. -/
theorem lineExpected_gives {separator : Edit Value} (hsep : Gives F K (fun v s => P s v) separator)
    (hP : ∀ v, Stable F (fun s => P s v))
    (hD : ∀ s, K s → ∀ x ∈ D, s.Typed x ∧ s.blank x = blank x ∧ s.brings x = brings x) (first : Bool) (done : List Value)
    (ks : List (Option Value)) :
    Gives F (fun s => K s ∧ List.Forall₂ (Fulfils (P s)) done ks)
      (fun es s => List.Forall₂ (Fulfils (P s)) es (wantedAfter blank brings first ks D))
      (lineExpected separator true first done D) := by
  induction D generalizing first done ks with
  | nil => exact .pure (fun s hs => hs.2)
  | cons v rest ih =>
    have hnext := ih (fun s hs x hx => hD s hs x (List.mem_cons_of_mem _ hx))
    have hgo : ∀ {before : List Value} {kept : List (Option Value)},
        (∀ s, List.Forall₂ (Fulfils (P s)) done ks → List.Forall₂ (Fulfils (P s)) before kept) →
        Gives F (fun s => K s ∧ List.Forall₂ (Fulfils (P s)) done ks)
          (fun es s => List.Forall₂ (Fulfils (P s)) es (wantedAfter blank brings false (kept ++ [some v]) rest))
          (lineExpected separator true false (before ++ [v]) rest) ∧
        Gives F (fun s => K s ∧ List.Forall₂ (Fulfils (P s)) done ks)
          (fun es s => List.Forall₂ (Fulfils (P s)) es (wantedAfter blank brings false (kept ++ [some v,none]) rest))
          (do lineExpected separator true false (before ++ [v,← separator]) rest) := by
      intro before kept hbefore
      constructor
      · refine Edit.Meets.weaken ((hnext false (before ++ [v]) (kept ++ [some v])).and (stable_fulfils hP done ks))
          (fun s hs => ⟨⟨hs.1,?_⟩,hs.2⟩) (fun es s hs => ⟨⟨hs.1.1.1,hs.1.2⟩,hs.2⟩)
        exact List.rel_append (hbefore s hs.2) (.cons rfl .nil)
      · refine .bind (hsep.and (stable_fulfils hP done ks)) (fun e => ?_)
        have hrest := (hnext false (before ++ [v,e]) (kept ++ [some v,none])).and ((stable_fulfils hP done ks).and (hP e))
        refine Edit.Meets.weaken hrest (fun s hs => ⟨⟨hs.1.1,?_⟩,hs.1.2,hs.2⟩)
          (fun es s hs => ⟨⟨⟨hs.1.1.1,hs.1.2.1⟩,hs.1.2.2⟩,hs.2⟩)
        exact List.rel_append (hbefore s hs.1.2) (.cons rfl (.cons hs.2 .nil))
    unfold lineExpected wantedAfter
    refine .ask (fun s type hs htype => ?_)
    obtain ⟨⟨kind,type',hgoes⟩,hblank,hbrings⟩ := hD s hs.1 v List.mem_cons_self
    obtain rfl : type' = type := Except.ok.inj (hgoes.typeOf.symm.trans htype)
    have hblank : type'.reads "endl" = blank v := by
      rw [← hblank,Store.blank,hgoes.sepKey]
      cases type'.reads "endl" <;> rfl
    have hbrings : (type'.reads "function" || type'.reads "class") = brings v := by
      rw [← hbrings,Store.brings,hgoes.typeOf]
      cases type' <;> rfl
    change Gives F _ _ (do
      if (type'.reads "endl" && !first && done.isEmpty) = true then throw Fault.outOfRange
      if (type'.reads "endl" && first || true && (type'.reads "function" || type'.reads "class")) = true then
        lineExpected separator true false ((if (type'.reads "endl" && !first) = true then done.dropLast else done) ++ [v]) rest
      else do
        let s ← separator
        lineExpected separator true false ((if (type'.reads "endl" && !first) = true then done.dropLast else done) ++ [v,s]) rest)
    rw [hblank,hbrings,Bool.true_and]
    have hbefore : ∀ s, List.Forall₂ (Fulfils (P s)) done ks → List.Forall₂ (Fulfils (P s))
        (if (blank v && !first) = true then done.dropLast else done) (if (blank v && !first) = true then ks.dropLast else ks) := by
      intro s h
      split
      · exact fulfils_dropLast h
      · exact h
    obtain ⟨hends,hline⟩ := hgo hbefore
    have hguard : ∀ {I : Store → Prop} {after : List Value → Store → Prop} {more : Edit (List Value)} (b : Bool),
        Gives F I after more → Gives F I after (if b = true then do throw Fault.outOfRange; more else more) := by
      intro I after more b hmore
      have hnever : Gives F I (fun _ _ => False) (throw Fault.outOfRange : Edit Unit) := .throw _
      split
      · exact .bind hnever (fun _ => hmore.and (fun _ _ h _ => h))
      · exact hmore
    dsimp only
    by_cases hends' : (blank v && first || brings v) = true
    · simp only [if_pos hends']
      exact hguard _ hends
    · simp only [if_neg hends']
      exact hguard _ hline

/-- A line end. -/
def Store.LineEnd (s : Store) (v : Value) : Prop := ∃ k, s.Goes v k (.text "endl")

theorem Store.LineEnd.frame (h : s.LineEnd v) (hF : s.Frame F t) (ht : F.KeepsTypes) : t.LineEnd v := by
  obtain ⟨k,h⟩ := h
  exact ⟨k,h.frame hF ht⟩

theorem Store.LineEnd.typed (h : s.LineEnd v) : s.Typed v := by
  obtain ⟨k,h⟩ := h
  exact ⟨k,_,h⟩

theorem Store.LineEnd.key (h : s.LineEnd v) : sepKey "endl" s v = none := by
  obtain ⟨k,h⟩ := h
  exact sepKey_eq_none h

theorem ofWord_endl : Kind.ofWord? "endl" = some .endl := by decide +kernel

theorem Kept.lineEnd {a b : Mark} {parent : Value} {place : Option Attr} {indent : String}
    (h : Kept (build (lineEnd indent) parent place) p a b n t) : t.LineEnd (.node n) := by
  obtain ⟨fields,k,c,hd,hg⟩ := h.grown
  cases hd
  obtain rfl := hg.kind_eq (by rfl) ofWord_endl
  exact ⟨.endl,n,c,rfl,hg.cell,hg.kind,hg.type⟩

/-- A line end that is none of some items. -/
def Store.OtherEnd (D : List Value) (s : Store) (v : Value) : Prop := s.LineEnd v ∧ D.any (·.is v) = false

theorem stable_otherEnd (ht : F.KeepsTypes) (D : List Value) (v : Value) :
    Stable F (fun s => s.OtherEnd D v) :=
  fun _ _ hs hF => ⟨hs.1.frame hF ht,hs.2⟩

theorem Store.OtherEnd.key (h : s.OtherEnd D v) : lineKey D s v = none := lineKey_eq_none.mpr ⟨h.2,h.1.key⟩

theorem not_any_is (hD : ∀ x ∈ D, s.Typed x) (hn : s.nodes.size ≤ n.index) : D.any (·.is (.node n)) = false := by
  rw [List.any_eq_false]
  intro x hx his
  obtain ⟨_,_,m,c,rfl,hc,-⟩ := hD x hx
  have hlt := Store.lt_nodes_of_get hc
  have hmn : m = n := by simpa [Value.is] using his
  rw [hmn] at hlt
  omega

section Making
variable (hK : Stable F K) (ht : F.KeepsTypes) (hfree : ∀ n, F.attr n (.field .indent))
  (hD : ∀ s, K s → ∀ x ∈ D, s.Typed x)
include hK ht hfree hD

theorem newLineEnd_gives (c : ViewCell) (indent : Value) :
    Gives F K (fun v s => s.OtherEnd D v) (newLineEnd c indent) := by
  have hmade : Gives F K (fun v s => s.OtherEnd D v) (newSeparator c (lineEnd "")) := by
    refine newSeparator_gives (P := fun s v => s.OtherEnd D v) hK c (fun p s n t hs h => ?_)
    obtain ⟨_,_,_,-,hg⟩ := (Kept.of_run h).grown
    exact ⟨(Kept.of_run h).lineEnd,not_any_is (hD s hs) (Nat.le_of_eq hg.first.symm)⟩
  refine .bind hmade (fun v => .first (hK.and (stable_otherEnd ht D v)) ?_ (fun _ => .pure (fun s hs => hs.2)))
  exact .setIndent (fun n _ => hfree n) indent

end Making

/-- A view of the lines of a block or of a document. -/
inductive LineView (s : Store) (w : ViewId) (l : ListId) : ViewForm → Prop where
  | block {n : NodeId} {k : Kind} (held : Held s w l n .value k .lines) : LineView s w l .lines
  | document {c : ViewCell} (view : s.views[w.index]? = some c) (form : c.form = .document) (target : c.target = .list l) :
    LineView s w l .document

theorem LineView.view (h : LineView s w l form) : ∃ c, s.views[w.index]? = some c ∧ c.form = form ∧ c.target = .list l := by
  cases h with
  | block held =>
    obtain ⟨c,hc,hform,htarget,-⟩ := held.view
    exact ⟨c,hc,hform,htarget⟩
  | document view form target => exact ⟨_,view,form,target⟩

theorem stable_lineView : Stable F (fun s => LineView s w l form) := by
  intro s t hs hF
  cases hs with
  | block held => exact .block (stable_held s t held hF)
  | document view form target =>
    obtain ⟨d,hd,hkeeps⟩ := hF.view view
    exact .document hd (hkeeps.form.trans form) (hkeeps.target.trans target)

theorem LineView.lineBased (h : LineView s w l form) : form.lineBased = true := by
  cases h <;> rfl

theorem lastIndent_gives {after : List Value → Store → Prop} (hK : Stable F K) (hfree : ∀ n, F.attr n (.field .indent))
    (hes : ∀ s, K s → after es s) (holder last : Value) : Gives F K after (do
      let followed ← if ← truth holder then truth (← attr holder "next") else pure false
      if followed then setIndent last (← attr holder "indentation")
      else setIndent last (.text "")
      return es) := by
  have hlast : ∀ indent, Gives F K after (do setIndent last indent; return es) := fun indent =>
    .first hK (.setIndent (fun n _ => hfree n) indent) (fun _ => .pure hes)
  have hends : ∀ followed : Bool, Gives F K after (if followed = true then do
      setIndent last (← attr holder "indentation")
      return es
    else do
      setIndent last (.text "")
      return es) := by
    intro followed
    split
    · exact .ask (fun s indent _ _ => hlast indent)
    · exact hlast _
  refine .ask (fun s b _ _ => ?_)
  split
  · exact .ask (fun s next _ _ => .ask (fun s followed _ _ => hends followed))
  · exact hends false

/-- What is expected in the list of a view of lines. -/
theorem expectedItems_lines (hK : Stable F K) (ht : F.KeepsTypes) (hfree : ∀ n, F.attr n (.field .indent))
    (hview : ∀ s, K s → LineView s w l form) (hshown : ∀ s, K s → s.ShowsItems w D)
    (hD : ∀ s, K s → ∀ x ∈ D, s.Typed x ∧ s.blank x = blank x ∧ s.brings x = brings x) :
    Gives F K (fun es s => List.Forall₂ (Fulfils (s.OtherEnd D)) es (form.wanted blank brings D)) (expectedItems w) := by
  have hends : ∀ c indent, Gives F K (fun v s => s.OtherEnd D v) (newLineEnd c indent) :=
    newLineEnd_gives hK ht hfree (fun s hs x hx => (hD s hs x hx).1)
  have hlines : ∀ c indent first done ks, Gives F (fun s => K s ∧ List.Forall₂ (Fulfils (s.OtherEnd D)) done ks)
      (fun es s => List.Forall₂ (Fulfils (s.OtherEnd D)) es (wantedAfter blank brings first ks D))
      (lineExpected (newLineEnd c indent) true first done D) := fun c indent =>
    lineExpected_gives (P := fun s v => s.OtherEnd D v) (hends c indent) (stable_otherEnd ht D) hD
  unfold expectedItems
  refine .ask (fun s c hs hc => ?_)
  obtain ⟨d,hd,hform,-⟩ := (hview s hs).view
  obtain ⟨d',hd',hitems⟩ := hshown s hs
  cases (Read.view_ok.mp hc).symm.trans hd
  cases hd.symm.trans hd'
  dsimp only
  rw [hform,hitems]
  cases hview s hs with
  | document view form target =>
    refine Edit.Meets.weaken (hlines c _ true [] []) (fun s hs => ⟨hs,.nil⟩) (fun es s hs => ⟨hs.1.1,hs.2⟩)
  | block held =>
    refine .ask (fun s indent hs _ => .bind (hends c indent) (fun first => ?_))
    have hstart : Gives F (fun s => K s ∧ s.OtherEnd D first)
        (fun es s => List.Forall₂ (Fulfils (s.OtherEnd D)) es (wantedAfter blank brings false [none] D))
        (lineExpected (newLineEnd c indent) true false [first] D) := by
      refine Edit.Meets.weaken (hlines c indent false [first] [none]) (fun s hs => ⟨hs.1,.cons hs.2 .nil⟩) ?_
      rintro es s ⟨⟨hs,hfirst⟩,hes⟩
      exact ⟨⟨hs,(List.forall₂_cons.mp hfirst).1⟩,hes⟩
    refine .bind hstart (fun es => ?_)
    have hkept := (hK.and (stable_otherEnd ht D first)).and
      (stable_fulfils (stable_otherEnd ht D) es (wantedAfter blank brings false [none] D))
    split
    · exact .pure (fun s hs => hs.2)
    · exact .ask (fun s holder _ _ => lastIndent_gives hkept hfree (fun s hs => hs.2) holder _)

end Expected

end CodeTree
