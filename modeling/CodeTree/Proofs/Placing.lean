import Mathlib.Data.List.Nodup
import CodeTree.Proofs.LineRuns

/-! # Lines and their places

The lines that a new view shows of a list, and why all of the list has a place among what is expected for them. The
line end behind a line is expected, unless the line is taken to bring it. Of a run of line ends each but the last is a
blank line of its own, which takes the place of the line end before it and has one behind it. Lines that are put in
between only add to what is expected.
-/
namespace CodeTree
variable {blank brings : Value → Bool} {leading first : Bool} {s t : Store} {v x : Value} {D L xs : List Value}
  {done : List (Option Value)} {previous : Option Value} {form : ViewForm}

section Shown

/-- The lines that a view shows of a list after an item: what is no line end, and of each run of line ends all but the
last. A line end in first place may count as a blank line. -/
def shownLines (blank : Value → Bool) (leading : Bool) : Option Value → List Value → List Value
  | _, [] => []
  | previous, v :: rest =>
    let here := if blank v then previous.elim (if leading then [v] else []) (fun q => if blank q then [q] else []) else [v]
    here ++ shownLines blank leading (some v) rest

/-- An item that tells whether it is a line end. -/
structure Store.Told (s : Store) (blank : Value → Bool) (x : Value) : Prop where
  some : x.isNone = false
  type : hasType x "endl" s = .ok (blank x)
  truth : blank x = true → CodeTree.truth x s = .ok true

theorem lineItems_shown {shown : List Value} (hL : ∀ x ∈ L, s.Told blank x) (hprevious : ∀ q ∈ previous, s.Told blank q)
    (h : lineItems leading (previous.getD .none) L s = .ok shown) : shown = shownLines blank leading previous L := by
  induction L generalizing previous shown with
  | nil =>
    cases h
    rfl
  | cons v rest ih =>
    have hv := hL v List.mem_cons_self
    have hrest : ∀ {others}, lineItems leading v rest s = .ok others → others = shownLines blank leading (some v) rest :=
      fun h => ih (List.forall_mem_cons.mp hL).2
        (fun q hq => (Option.some.inj hq) ▸ hv) h
    have hcons : ∀ {y : Value}, (do return y :: (← lineItems leading v rest) : Read (List Value)) s = .ok shown →
        shown = y :: shownLines blank leading (some v) rest := by
      intro y h
      obtain ⟨others,hothers,h⟩ := Read.bind_ok.mp h
      cases h
      rw [hrest hothers]
    unfold lineItems at h
    rw [Read.bind_known hv.type] at h
    rw [shownLines]
    cases hblank : blank v with
    | false =>
      rw [hblank] at h
      exact hcons h
    | true =>
      rw [hblank] at h
      obtain ⟨asked,hasked,h⟩ := Read.bind_ok.mp h
      -- What comes before is a line end if it counts as true and is of that type.
      cases previous with
      | none =>
        cases hasked
        cases leading with
        | true => exact hcons h
        | false => exact hrest h
      | some q =>
        have hq := hprevious q rfl
        have hafter : ∀ b : Bool, b = blank q → (if b = true then do return q :: (← lineItems leading v rest)
            else if (leading && q.isNone) = true then do return v :: (← lineItems leading v rest)
            else lineItems leading v rest : Read (List Value)) s = .ok shown →
            shown = (if blank q then [q] else []) ++ shownLines blank leading (some v) rest := by
          intro b hb h
          rw [hb,hq.some,Bool.and_false] at h
          cases hqb : blank q with
          | true =>
            rw [hqb] at h
            exact hcons h
          | false =>
            rw [hqb] at h
            exact hrest h
        cases asked with
        | true =>
          obtain ⟨b,hb,h⟩ := Read.bind_ok.mp h
          exact hafter b (Except.ok.inj (hb.symm.trans hq.type)) h
        | false =>
          have hqb : false = blank q := by
            cases hqb : blank q with
            | false => rfl
            | true => cases hasked.symm.trans (hq.truth hqb)
          exact hafter false hqb h

/-- A line end is shown if it comes first and may, or if another one follows it. -/
theorem mem_shownLines (hx : blank x = true) :
    x ∈ shownLines blank leading previous L ↔ (previous = some x ∧ L.head?.any blank = true) ∨
      (leading = true ∧ previous = none ∧ L.head? = some x) ∨
      ∃ before after, L = before ++ x :: after ∧ after.head?.any blank = true := by
  induction L generalizing previous with
  | nil => simp [shownLines]
  | cons v rest ih =>
    rw [shownLines,List.mem_append,ih]
    have hsplit : (∃ before after, v :: rest = before ++ x :: after ∧ after.head?.any blank = true) ↔
        (v = x ∧ rest.head?.any blank = true) ∨ ∃ before after, rest = before ++ x :: after ∧ after.head?.any blank = true := by
      constructor
      · rintro ⟨before,after,heq,hafter⟩
        cases before with
        | nil =>
          obtain ⟨rfl,rfl⟩ := List.cons.inj heq
          exact .inl ⟨rfl,hafter⟩
        | cons y before =>
          obtain ⟨-,rfl⟩ := List.cons.inj heq
          exact .inr ⟨before,after,rfl,hafter⟩
      · rintro (⟨rfl,hrest⟩ | ⟨before,after,rfl,hafter⟩)
        · exact ⟨[],rest,rfl,hrest⟩
        · exact ⟨v :: before,after,rfl,hafter⟩
    rw [hsplit]
    have hhere : x ∈ (if blank v then previous.elim (if leading then [v] else []) (fun q => if blank q then [q] else []) else [v]) ↔
        (previous = some x ∧ blank v = true) ∨ (leading = true ∧ previous = none ∧ v = x) := by
      cases hv : blank v with
      | false =>
        have hne : v ≠ x := by
          rintro rfl
          rw [hv] at hx
          cases hx
        simp [hne,Ne.symm hne]
      | true =>
        cases previous with
        | none => cases leading <;> simp [eq_comm (a := x)]
        | some q =>
          by_cases hq : q = x
          · simp [hq,hx]
          · have hnot : x ∉ (if blank q = true then [q] else []) := by
              split
              · simpa using fun h : x = q => hq h.symm
              · simp
            simpa [hq] using hnot
    rw [hhere]
    simp only [List.head?_cons,Option.any_some,Option.some.injEq]
    constructor
    · rintro ((h | h) | ⟨rfl,h⟩ | ⟨-,h,-⟩ | h)
      · exact .inl h
      · exact .inr (.inl h)
      · exact .inr (.inr (.inl ⟨rfl,h⟩))
      · cases h
      · exact .inr (.inr (.inr h))
    · rintro (h | h | ⟨rfl,h⟩ | h)
      · exact .inl (.inl h)
      · exact .inl (.inr h)
      · exact .inr (.inl ⟨rfl,h⟩)
      · exact .inr (.inr (.inr h))

end Shown

section Placed

/-- The keys of a list, by which a line end without another one behind it is no line. -/
def KeyedBy (blank : Value → Bool) (key : Value → Option Value) : Bool → List Value → Prop
  | _, [] => True
  | leading, v :: rest =>
    key v = (if blank v && !leading && !rest.head?.any blank then none else some v) ∧ KeyedBy blank key false rest

theorem wantedAfter_append (A B : List Value) : wantedAfter blank brings first done (A ++ B) =
    wantedAfter blank brings (first && A.isEmpty) (wantedAfter blank brings first done A) B := by
  induction A generalizing first done with
  | nil => simp [wantedAfter]
  | cons v rest ih =>
    rw [List.cons_append,wantedAfter,wantedAfter]
    split <;> rw [ih] <;> simp

theorem mem_of_wantedAfter (h : some x ∈ wantedAfter blank brings first done D) : some x ∈ done ∨ x ∈ D := by
  induction D generalizing first done with
  | nil => exact .inl h
  | cons v rest ih =>
    have hbefore : some x ∈ (if blank v && !first then done.dropLast else done) → some x ∈ done := by
      split
      · exact fun h => List.dropLast_subset _ h
      · exact id
    have hstep : ∀ {after}, (∀ k ∈ after, k = some v ∨ k = none) →
        some x ∈ wantedAfter blank brings false ((if blank v && !first then done.dropLast else done) ++ after) rest →
        some x ∈ done ∨ x ∈ v :: rest := by
      intro after hafter h
      rcases ih h with h | h
      · rcases List.mem_append.mp h with h | h
        · exact .inl (hbefore h)
        · rcases hafter _ h with h | h
          · exact .inr (Option.some.inj h ▸ List.mem_cons_self)
          · cases h
      · exact .inr (List.mem_cons_of_mem _ h)
    rw [wantedAfter] at h
    split at h
    · exact hstep (by simp) h
    · exact hstep (by simp) h

theorem wantedAfter_mono {done' : List (Option Value)} (h : done.Sublist done')
    (hlast : done.dropLast.Sublist done'.dropLast) :
    (wantedAfter blank brings false done D).Sublist (wantedAfter blank brings false done' D) := by
  induction D generalizing done done' with
  | nil => exact h
  | cons v rest ih =>
    have hbefore : (if blank v && !false then done.dropLast else done).Sublist
        (if blank v && !false then done'.dropLast else done') := by
      split
      · exact hlast
      · exact h
    rw [wantedAfter,wantedAfter]
    split
    · refine ih (hbefore.append (List.Sublist.refl _)) ?_
      rw [List.dropLast_concat,List.dropLast_concat]
      exact hbefore
    · refine ih (hbefore.append (List.Sublist.refl _)) ?_
      rw [List.append_cons _ (some v) [none],List.append_cons _ (some v) [none],List.dropLast_concat,List.dropLast_concat]
      exact hbefore.append (List.Sublist.refl _)

theorem dropLast_sublist_append {α : Type} (xs ys : List α) : xs.dropLast.Sublist (xs ++ ys).dropLast := by
  cases ys with
  | nil => rw [List.append_nil]
  | cons y ys =>
    rw [List.dropLast_append_of_ne_nil (List.cons_ne_nil _ _)]
    exact (List.dropLast_sublist xs).trans (List.sublist_append_left _ _)

section Inserted
variable (hxs : ∀ x ∈ xs, blank x = false ∧ brings x = false) (hsorts : ∀ x, brings x = true → blank x = false)
include hxs

theorem lineParts_inserted : xs = [] ∨ ∃ ks, xs.flatMap (lineParts blank brings) = ks ++ [none] := by
  rcases List.eq_nil_or_concat' xs with rfl | ⟨init,x,rfl⟩
  · exact .inl rfl
  · obtain ⟨hblank,hbrings⟩ := hxs x (by simp)
    refine .inr ⟨init.flatMap (lineParts blank brings) ++ [some x],?_⟩
    rw [List.flatMap_append,List.flatMap_singleton,lineParts,hblank,hbrings]
    simp

include hsorts in
/-- Lines that are put in between add to what is expected. -/
theorem wantedAfter_inserted (hstart : first = true → done = []) (A B : List Value) :
    (wantedAfter blank brings first done (A ++ B)).Sublist (wantedAfter blank brings first done (A ++ (xs ++ B))) := by
  have hsolid : ∀ x ∈ xs, blank x = false := fun x hx => (hxs x hx).1
  rw [wantedAfter_append A B,wantedAfter_append A (xs ++ B),wantedAfter_append xs B,wantedAfter_solid hsolid]
  rcases lineParts_inserted hxs with rfl | ⟨ks,hks⟩
  · simp
  have hne : xs.isEmpty = false := by
    cases xs with
    | nil => exact absurd hks (by simp)
    | cons => rfl
  rw [hks,hne,Bool.and_false]
  cases hfirst : first && A.isEmpty with
  | false => exact wantedAfter_mono (List.sublist_append_left _ _) (dropLast_sublist_append _ _)
  | true =>
    -- A blank line that came first takes the place of a line end now.
    obtain ⟨rfl,hA⟩ : first = true ∧ A.isEmpty = true := by simpa using hfirst
    obtain rfl := List.isEmpty_iff.mp hA
    obtain rfl := hstart rfl
    cases B with
    | nil => exact List.nil_sublist _
    | cons v rest =>
      rw [wantedAfter,wantedAfter,wantedAfter]
      cases hv : blank v with
      | false => cases hb : brings v <;> simp <;> exact wantedAfter_mono (by simp) (by simp [List.dropLast_append_of_ne_nil])
      | true =>
        have hb : brings v = false := by
          rw [Bool.eq_false_iff]
          intro h
          rw [hsorts v h] at hv
          cases hv
        simp [hb]
        exact wantedAfter_mono (by simp) (by simp)

end Inserted

section Fresh
variable {key : Value → Option Value}

/-- A list has its place among what is expected for the lines of it that are shown: behind a line end that is already
there, or behind whatever comes before a line. -/
theorem placed_after (leading : Bool) {rest : List Value} (hkeys : KeyedBy blank key false (v :: rest))
    (hL : Unbroken blank brings (v :: rest)) (hsorts : ∀ x, brings x = true → blank x = false) :
    (blank v = true → ∀ d, (d ++ (v :: rest).map key).Sublist
      (wantedAfter blank brings false (d ++ [none]) (shownLines blank leading (some v) rest))) ∧
    (blank v = false → ∀ done, (done ++ (v :: rest).map key).Sublist
      (wantedAfter blank brings false done (v :: shownLines blank leading (some v) rest))) := by
  induction rest generalizing v with
  | nil =>
    obtain ⟨hv,-⟩ := hkeys
    constructor
    · intro hblank d
      rw [hblank] at hv
      simp [shownLines,wantedAfter,hv]
    · intro hblank done
      rw [hblank] at hv
      cases hb : brings v <;> simp [shownLines,wantedAfter,hv,hblank,hb]
  | cons y rest ih =>
    obtain ⟨hv,hkeys⟩ := hkeys
    obtain ⟨hends,hlines⟩ := ih hkeys hL.tail
    rw [List.map_cons]
    constructor
    · intro hblank d
      have hb : brings v = false := by
        rw [Bool.eq_false_iff]
        intro h
        rw [hsorts v h] at hblank
        cases hblank
      cases hy : blank y with
      | false =>
        have hkey : key v = none := by simpa [hblank,hy] using hv
        have hnext := hlines hy (d ++ [none])
        rw [hkey,shownLines]
        simpa [hy] using hnext
      | true =>
        have hkey : key v = some v := by simpa [hblank,hy] using hv
        have hnext := hends hy (d ++ [some v])
        rw [hkey,shownLines]
        simpa [hy,hblank,wantedAfter,hb] using hnext
    · intro hblank done
      have hkey : key v = some v := by simpa [hblank] using hv
      rw [hkey,shownLines]
      cases hy : blank y with
      | true =>
        -- A line that is followed by a line end is not taken to bring one.
        have hb : brings v = false := by
          rw [Bool.eq_false_iff]
          intro h
          have hnot := hL.rel_head? rfl h
          rw [hnot] at hy
          cases hy
        have hnext := hends hy (done ++ [some v])
        simpa [hblank,wantedAfter,hb] using hnext
      | false =>
        cases hb : brings v with
        | true =>
          have hnext := hlines hy (done ++ [some v])
          simpa [wantedAfter,hblank,hb] using hnext
        | false =>
          have hnext := hlines hy (done ++ [some v,none])
          have hmore : (done ++ some v :: (y :: rest).map key).Sublist ((done ++ [some v,none]) ++ (y :: rest).map key) := by
            simp
          simpa [wantedAfter,hblank,hb] using hmore.trans hnext

/-- What a list of lines begins with that a view of some form stands for. -/
def ViewForm.start : ViewForm → List (Option Value)
  | .lines => [none]
  | _ => []

/-- No decorator is taken to bring its line end. -/
def ViewForm.bringing (form : ViewForm) (brings : Value → Bool) (v : Value) : Bool := form != .decorators && brings v

/-- The keys of what is expected for some lines in the list behind a view of some form. -/
def ViewForm.expected (form : ViewForm) (blank brings : Value → Bool) (D : List Value) : List (Option Value) :=
  wantedAfter blank (form.bringing brings) (form == .document) form.start D

theorem ViewForm.mem_of_expected (h : some v ∈ form.expected blank brings D) : v ∈ D := by
  rcases mem_of_wantedAfter h with h | h
  · cases form <;> simp [ViewForm.start] at h
  · exact h

theorem ViewForm.brings_of_bringing (h : form.bringing brings v = true) : brings v = true :=
  (Bool.and_eq_true_iff.mp h).2

theorem Unbroken.bringing (h : Unbroken blank brings D) (form : ViewForm) : Unbroken blank (form.bringing brings) D :=
  h.imp (fun _ _ hxy hx => hxy (ViewForm.brings_of_bringing hx))

/-- Lines can be expected after what a list begins with: a blank line needs something before it, unless it may come
first. -/
def ViewForm.Accepts (form : ViewForm) (blank : Value → Bool) (D : List Value) : Prop :=
  form = .decorators → ∀ y ∈ D.head?, blank y = false

/-- All of a list has its place among what is expected for the lines that are shown of it. -/
theorem lines_placed (hform : form.lineBased = true) (hkeys : KeyedBy blank key (form == .document) L)
    (hL : Unbroken blank brings L) (hsorts : ∀ x, brings x = true → blank x = false) (hstart : form.Accepts blank L) :
    (L.map key).Sublist (form.expected blank brings (shownLines blank (form == .document) none L)) := by
  have hsorts' : ∀ x, form.bringing brings x = true → blank x = false :=
    fun x hx => hsorts x (ViewForm.brings_of_bringing hx)
  have hL' : Unbroken blank (form.bringing brings) L := hL.bringing form
  unfold ViewForm.expected
  generalize form.bringing brings = brings at hL' hsorts'
  cases L with
  | nil => exact List.nil_sublist _
  | cons v rest =>
    have hplaced : KeyedBy blank key false (v :: rest) → _ := fun h => placed_after (form == .document) h hL' hsorts'
    rw [shownLines]
    cases form with
    | lines =>
      obtain ⟨hends,hlines⟩ := hplaced hkeys
      cases hv : blank v with
      | true => exact hends hv []
      | false => exact (List.sublist_cons_self _ _).trans (hlines hv [none])
    | decorators =>
      have hv := hstart rfl v rfl
      rw [hv]
      exact (hplaced hkeys).2 hv []
    | document =>
      obtain ⟨hkey,hkeys⟩ := hkeys
      cases hv : blank v with
      | false =>
        have hnext := (hplaced ⟨by simpa [hv] using hkey,hkeys⟩).2 hv []
        simpa [wantedAfter,hv,ViewForm.start] using hnext
      | true =>
        have hkey : key v = some v := by simpa using hkey
        have hb : brings v = false := by
          rw [Bool.eq_false_iff]
          intro h
          rw [hsorts' v h] at hv
          cases hv
        cases rest with
        | nil => simp [wantedAfter,shownLines,hv,hkey,ViewForm.start]
        | cons y rest =>
          obtain ⟨hends,hlines⟩ := placed_after true hkeys hL'.tail hsorts'
          rw [shownLines]
          cases hy : blank y with
          | true =>
            have hnext := hends hy [some v]
            simpa [wantedAfter,hv,hkey,hb,ViewForm.start] using hnext
          | false =>
            have hnext := hlines hy [some v]
            simpa [wantedAfter,hv,hkey,hb,ViewForm.start] using hnext
    | _ => cases hform

/-- It has it still when lines are put in between, and behind lines that come first whatever it begins with. -/
theorem lines_placed_inserted (hform : form.lineBased = true) (hkeys : KeyedBy blank key (form == .document) L)
    (hL : Unbroken blank brings L) (hsorts : ∀ x, brings x = true → blank x = false)
    (hxs : ∀ x ∈ xs, blank x = false ∧ brings x = false) (hD : D = shownLines blank (form == .document) none L) {i : Nat}
    (hstart : form.Accepts blank L ∨ i = 0 ∧ xs ≠ []) :
    (L.map key).Sublist (form.expected blank brings (D.take i ++ (xs ++ D.drop i))) := by
  have hsorts' : ∀ x, form.bringing brings x = true → blank x = false :=
    fun x hx => hsorts x (ViewForm.brings_of_bringing hx)
  have hxs' : ∀ x ∈ xs, blank x = false ∧ form.bringing brings x = false := by
    intro x hx
    refine ⟨(hxs x hx).1,?_⟩
    rw [ViewForm.bringing,(hxs x hx).2,Bool.and_false]
  have hdocument : (form == .document) = true → form.start = [] := by
    intro h
    rw [beq_iff_eq.mp h]
    rfl
  by_cases haccepts : form.Accepts blank L
  · have hplaced := lines_placed hform hkeys hL hsorts haccepts
    rw [← hD,← List.take_append_drop i D] at hplaced
    exact hplaced.trans (wantedAfter_inserted hxs' hsorts' hdocument _ _)
  · obtain ⟨rfl,hne⟩ := hstart.resolve_left haccepts
    obtain rfl : form = .decorators := by
      by_contra hnot
      exact haccepts (fun h => absurd h hnot)
    obtain ⟨ks,hks⟩ := (lineParts_inserted hxs').resolve_left hne
    have hsolid : ∀ x ∈ xs, blank x = false := fun x hx => (hxs x hx).1
    rw [List.take_zero,List.nil_append,List.drop_zero,hD,ViewForm.expected,wantedAfter_append,wantedAfter_solid hsolid,hks]
    cases L with
    | nil => exact List.nil_sublist _
    | cons v rest =>
      cases hv : blank v with
      | false =>
        refine absurd (fun _ y hy => ?_) haccepts
        cases hy
        exact hv
      | true =>
        rw [shownLines,hv]
        have hplaced := (placed_after false hkeys (hL.bringing _) hsorts').1 hv ks
        exact (List.sublist_append_right _ _).trans hplaced

/-- The keys by which a list is compared are those by which the shown lines are told from other line ends. -/
theorem keyedBy_shown (hnodup : L.Nodup) (hline : ∀ x ∈ L, blank x = false → key x = some x)
    (hshown : ∀ x ∈ L, x ∈ shownLines blank leading none L → key x = some x)
    (hend : ∀ x ∈ L, blank x = true → x ∉ shownLines blank leading none L → key x = none) : KeyedBy blank key leading L := by
  have hsuffix : ∀ rest before, L = before ++ rest → KeyedBy blank key (leading && before.isEmpty) rest := by
    intro rest
    induction rest with
    | nil => exact fun _ _ => trivial
    | cons x rest ih =>
      intro before heq
      have hx : x ∈ L := by rw [heq]; simp
      have hnext := ih (before ++ [x]) (by rw [heq]; simp)
      have hlater : (leading && (before ++ [x]).isEmpty) = false := by simp
      refine ⟨?_,hlater ▸ hnext⟩
      cases hblank : blank x with
      | false => exact hline x hx hblank
      | true =>
        rw [heq] at hnodup
        have hbefore : x ∉ before := fun h => (List.disjoint_of_nodup_append hnodup) h List.mem_cons_self
        have hiff : x ∈ shownLines blank leading none L ↔ (leading && before.isEmpty) = true ∨ rest.head?.any blank = true := by
          rw [mem_shownLines hblank,heq]
          constructor
          · rintro (⟨h,-⟩ | ⟨hleading,-,hhead⟩ | ⟨before',after,hsplit,hafter⟩)
            · cases h
            · cases before with
              | nil => exact .inl (by simpa using hleading)
              | cons y before =>
                cases hhead
                exact absurd List.mem_cons_self hbefore
            · have hrest : x ∉ rest := (List.nodup_cons.mp (List.nodup_append.mp hnodup).2.1).1
              obtain ⟨-,-,rfl⟩ := (List.append_cons_inj_of_notMem hbefore hrest).mp hsplit
              exact .inr hafter
          · rintro (h | h)
            · obtain ⟨hleading,hnil⟩ := Bool.and_eq_true_iff.mp h
              rw [List.isEmpty_iff.mp hnil]
              exact .inr (.inl ⟨hleading,rfl,rfl⟩)
            · exact .inr (.inr ⟨before,rest,rfl,h⟩)
        cases hleading : leading && before.isEmpty with
        | true => simpa using hshown x hx (hiff.mpr (.inl hleading))
        | false =>
          cases hrest : rest.head?.any blank with
          | true => simpa using hshown x hx (hiff.mpr (.inr hrest))
          | false => simpa using hend x hx hblank (fun h => by simpa [hleading,hrest] using hiff.mp h)
  simpa using hsuffix L [] rfl

end Fresh

section Statements

theorem unbroken_shown (hL : Unbroken blank brings L) :
    Unbroken blank brings (shownLines blank leading none L) := by
  have hafter : ∀ rest v, Unbroken blank brings (v :: rest) → Unbroken blank brings (shownLines blank leading (some v) rest) ∧
      ∀ y ∈ (shownLines blank leading (some v) rest).head?, brings v = true → blank y = false := by
    intro rest
    induction rest with
    | nil => exact fun _ _ => ⟨.nil,by simp [shownLines]⟩
    | cons y rest ih =>
      intro v hL
      obtain ⟨hchain,hhead⟩ := ih y hL.tail
      have hlink : brings v = true → blank y = false := hL.rel_head? rfl
      rw [shownLines]
      cases hy : blank y with
      | false =>
        refine ⟨hchain.cons (fun z hz => hhead z hz),fun z hz _ => ?_⟩
        cases hz
        exact hy
      | true =>
        have hnot : brings v = true → False := fun h => by rw [hlink h] at hy; cases hy
        cases hv : blank v with
        | false => exact ⟨by simpa [hv] using hchain,fun _ _ h => (hnot h).elim⟩
        | true =>
          have hcons : Unbroken blank brings (v :: shownLines blank leading (some y) rest) :=
            hchain.cons (fun _ _ h => (hnot h).elim)
          exact ⟨by simpa [hv] using hcons,fun _ _ h => (hnot h).elim⟩
  cases L with
  | nil => exact .nil
  | cons v rest =>
    obtain ⟨hchain,hhead⟩ := hafter rest v hL
    have hcons : Unbroken blank brings (v :: shownLines blank leading (some v) rest) := hchain.cons hhead
    rw [shownLines]
    cases hv : blank v with
    | false => exact hcons
    | true =>
      cases leading with
      | true => exact hcons
      | false => exact hchain

theorem unbroken_inserted {A B : List Value} (h : Unbroken blank brings (A ++ B))
    (hxs : ∀ x ∈ xs, blank x = false ∧ brings x = false) : Unbroken blank brings (A ++ (xs ++ B)) := by
  obtain ⟨hA,hB,-⟩ := List.isChain_append.mp h
  have hinner : Unbroken blank brings xs := by
    clear h
    induction xs with
    | nil => exact .nil
    | cons x xs ih =>
      refine (ih (List.forall_mem_cons.mp hxs).2).cons (fun y hy _ => ?_)
      exact (hxs y (List.mem_cons_of_mem _ (List.mem_of_mem_head? hy))).1
  cases xs with
  | nil => exact h
  | cons x xs =>
    refine List.isChain_append.mpr ⟨hA,List.isChain_append.mpr ⟨hinner,hB,fun y hy z _ hbrings => ?_⟩,fun y _ z hz _ => ?_⟩
    · rw [(hxs y (List.mem_of_getLast? hy)).2] at hbrings
      cases hbrings
    · cases hz
      exact (hxs x List.mem_cons_self).1

theorem ViewForm.expected_statements {base : Value → Option Value} (hbase : ∀ x, base x = if blank x then none else some x)
    (hsorts : ∀ x, brings x = true → blank x = false) (hD : Unbroken blank brings D) (hform : form.lineBased = true)
    (haccepts : form.Accepts blank D) : (form.expected blank brings D).filterMap (·.bind base) = D.filterMap base := by
  have hstart : (form == .document) = false → form.start = [] → ∀ y ∈ D.head?, blank y = false := by
    cases form with
    | decorators => exact fun _ _ => haccepts rfl
    | lines => exact fun _ h => absurd h (List.cons_ne_nil _ _)
    | document => exact fun h => absurd h (by decide)
    | _ => cases hform
  have hdone : ∀ k ∈ form.start.getLast?, ∀ y ∈ D.head?, blank y = true → k.bind base = none := by
    cases form <;> simp [ViewForm.start]
  have hstarts : (form.start.map (·.bind base)).filterMap id = [] := by cases form <;> rfl
  have hkeys := wantedAfter_keys hbase (fun x hx => hsorts x (ViewForm.brings_of_bringing hx)) (hD.bringing form)
    hstart hdone
  have hall := congrArg (List.filterMap id) hkeys
  rw [List.filterMap_append,hstarts,List.nil_append,lineParts_statements hbase,List.filterMap_map] at hall
  exact hall

end Statements

end Placed

end CodeTree
