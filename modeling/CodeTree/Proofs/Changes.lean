import CodeTree.Session.Call
import CodeTree.Session.Sequence
import CodeTree.Proofs.Stepping

/-! # Changes to a view

The calls that change a view, each with what the same call does to an ordinary list. A call converts
what it is given, changes the items of the view and then makes one or more passes over the list behind
it.
-/
namespace CodeTree
variable {p : Parser} {s t u : Store} {w : ViewId} {r : Unit} {change : Change} {dir : Direction} {e : Edit Unit}
  {F : Freedom} {i : Int} {dirs dirs' : List Direction} {D xs : List Value} {l : ListId} {j : Nat} {x v : Value}

/-- A call that changes a view. -/
inductive Change where
  | append (v : Value)
  | insert (i : Int) (v : Value)
  /-- With the values of a list. -/
  | extend (l : ListId)
  /-- Without a position, takes out the last item. -/
  | pop (i : Option Int)
  | remove (v : Value)
  | delete (spot : Spot)
  | put (i : Int) (v : Value)
  /-- With the values of a list. -/
  | putSpan (span : Span) (l : ListId)

/-- Asks a view something by name. -/
def askView (w : ViewId) (name : String) (given : List Value) : Edit Unit := do
  match viewAnswer w (← Read.view w) name (.ofList given) with
  | some answer => discard answer
  | none => throw .noAttribute

namespace Change

def run (w : ViewId) : Change → Edit Unit
  | append v => askView w "append" [v]
  | insert i v => askView w "insert" [.int i, v]
  | extend l => askView w "extend" [.list l]
  | pop none => askView w "pop" []
  | pop (some i) => askView w "pop" [.int i]
  | remove v => askView w "remove" [v]
  | delete spot => deleteAt (.view w) spot
  | put i v => putAt (.view w) (.index i) v
  | putSpan span l => putAt (.view w) (.span span) (.list l)

/-- The passes that a call makes over the list behind the view. -/
def passes : Change → List Direction
  | append _ | insert _ _ | extend _ => [.adding]
  | pop _ | remove _ | delete _ => [.taking]
  | put _ _ => [.taking,.adding]
  | putSpan _ _ => [.taking,.adding,.taking,.adding]

theorem passes_cases (change : Change) : change.passes = [.adding] ∨ change.passes = [.taking] ∨
    change.passes = [.taking,.adding] ∨ change.passes = [.taking,.adding] ++ [.taking,.adding] := by
  cases change <;> simp [passes]

end Change

/-- The values that a call is given. -/
def Change.values (s : Store) : Change → List Value
  | append v | insert _ v | put _ v => [v]
  | extend l | putSpan _ l =>
    match s.lists[l.index]? with
    | some c => c.items
    | none => []
  | pop _ | remove _ | delete _ => []

/-- The position that an index stands for, counted from the end if it is negative. -/
def IsIndex (n : Nat) (i : Int) (j : Nat) : Prop := j < n ∧ ((j : Int) = i ∨ (j : Int) = i + n)

/-- The place between items that an index stands for: the nearest one there is. -/
def gap (n : Nat) (i : Int) : Nat := (max 0 (min (n : Int) (if i < 0 then i + n else i))).toNat

/-- The same for a bound that may be missing. -/
def gapOr (n otherwise : Nat) : Option Int → Nat
  | none => otherwise
  | some i => gap n i

/-- A list with other items in the place of those from one bound to another. -/
def spliced (span : Span) (xs D : List Value) : List Value :=
  let first := gapOr D.length 0 span.start
  D.take first ++ xs ++ D.drop (max first (gapOr D.length D.length span.stop))

/-- What a call does to an ordinary list, with nodes in the place of the values it is given. -/
def Change.Makes (D xs D' : List Value) : Change → Prop
  | append _ => ∃ x, xs = [x] ∧ D' = D ++ [x]
  | insert i _ => ∃ x, xs = [x] ∧ D' = D.take (gap D.length i) ++ x :: D.drop (gap D.length i)
  | extend _ => D' = D ++ xs
  | pop i => ∃ j, IsIndex D.length (i.getD (-1)) j ∧ D' = D.eraseIdx j
  | remove v => ∃ before after, D = before ++ v :: after ∧ v ∉ before ∧ D' = before ++ after
  | delete (.index i) => ∃ j, IsIndex D.length i j ∧ D' = D.eraseIdx j
  | delete (.span span) => D' = spliced span [] D
  | put i _ => ∃ x j, xs = [x] ∧ IsIndex D.length i j ∧ D' = D.set j x
  | putSpan span _ => D' = spliced span xs D

section Makes
variable {change : Change} {D D' xs : List Value}

theorem spliced_nil_sublist (span : Span) (D : List Value) : (spliced span [] D).Sublist D := by
  unfold spliced
  dsimp only
  generalize gapOr D.length 0 span.start = i
  generalize gapOr D.length D.length span.stop = j
  rw [List.append_nil]
  conv_rhs => rw [← List.take_append_drop i D]
  exact (List.Sublist.refl _).append (List.drop_sublist_drop_left D (Nat.le_max_left i j))

theorem Change.Makes.adds (h : change.Makes D xs D') (hpasses : change.passes = [.adding]) : D.Sublist D' := by
  cases change with
  | append v =>
    obtain ⟨x,-,rfl⟩ := h
    exact List.sublist_append_left _ _
  | insert i v =>
    obtain ⟨x,-,rfl⟩ := h
    conv_lhs => rw [← List.take_append_drop (gap D.length i) D]
    exact (List.Sublist.refl _).append (List.sublist_cons_self _ _)
  | extend l =>
    obtain rfl : D' = D ++ xs := h
    exact List.sublist_append_left _ _
  | _ => cases hpasses

theorem Change.Makes.takes (h : change.Makes D xs D') (hpasses : change.passes = [.taking]) : D'.Sublist D := by
  cases change with
  | pop i =>
    obtain ⟨j,-,rfl⟩ := h
    exact List.eraseIdx_sublist _ _
  | remove v =>
    obtain ⟨before,after,rfl,-,rfl⟩ := h
    exact (List.Sublist.refl _).append (List.sublist_cons_self _ _)
  | delete spot =>
    cases spot with
    | index i =>
      obtain ⟨j,-,rfl⟩ := h
      exact List.eraseIdx_sublist _ _
    | span span =>
      obtain rfl : D' = spliced span [] D := h
      exact spliced_nil_sublist span D
  | _ => cases hpasses

/-- Calls make up no items. -/
theorem Change.Makes.mem (h : change.Makes D xs D') (hx : x ∈ D') : x ∈ D ∨ x ∈ xs := by
  by_cases htakes : change.passes = [.taking]
  · exact .inl ((h.takes htakes).subset hx)
  · cases change with
    | append v =>
      obtain ⟨y,rfl,rfl⟩ := h
      simpa using hx
    | insert i v =>
      obtain ⟨y,rfl,rfl⟩ := h
      rcases List.mem_append.mp hx with hx | hx
      · exact .inl (List.mem_of_mem_take hx)
      · exact (List.mem_cons.mp hx).symm.imp List.mem_of_mem_drop List.mem_singleton.mpr
    | extend l =>
      obtain rfl : D' = D ++ xs := h
      exact List.mem_append.mp hx
    | put i v =>
      obtain ⟨y,j,rfl,-,rfl⟩ := h
      exact (List.mem_or_eq_of_mem_set hx).imp id List.mem_singleton.mpr
    | putSpan span l =>
      obtain rfl : D' = spliced span xs D := h
      rcases List.mem_append.mp hx with hx | hx
      · exact (List.mem_append.mp hx).imp List.mem_of_mem_take id
      · exact .inl (List.mem_of_mem_drop hx)
    | _ => exact absurd rfl htakes

end Makes

theorem bound_eq_gap (n : Nat) (i : Int) : Span.bound n i = gap n i := by
  unfold Span.bound gap
  split <;> omega

theorem insertAt_eq (i : Int) (x : Value) (D : List Value) :
    insertAt i x D = D.take (gap D.length i) ++ x :: D.drop (gap D.length i) := by
  unfold insertAt
  rw [bound_eq_gap]

theorem replace_eq (span : Span) (xs D : List Value) : span.replace xs D = spliced span xs D := by
  have hgap : Span.bound D.length = gap D.length := funext (bound_eq_gap D.length)
  unfold Span.replace Span.before Span.after spliced Span.last Span.first
  rw [hgap]
  cases span.start <;> cases span.stop <;> rfl

theorem indexIn_some {n : Nat} (h : indexIn? n i = some j) : IsIndex n i j := by
  unfold indexIn? at h
  unfold IsIndex
  by_cases hi : i < 0
  · simp only [hi,if_true,Option.ite_none_right_eq_some,Option.some.injEq] at h
    omega
  · simp only [hi,if_false,Option.ite_none_right_eq_some,Option.some.injEq] at h
    omega

theorem askView_eq {name : String} {given : List Value} (h : ∀ c, viewAnswer w c name (.ofList given) = some (silently e)) :
    askView w name given = (do let _ ← Read.view w; e) := by
  have hdiscard : discard (silently e) = e := by
    unfold silently discard
    rw [map_const]
    simp
  unfold askView
  simp only [h,hdiscard]

/-- Passes over the list behind a view, one after the other. -/
inductive Passes (p : Parser) (w : ViewId) : List Direction → Store → Store → Prop
  | nil (s : Store) : Passes p w [] s s
  | cons {s t u : Store} {fuel : Nat} {dir : Direction} {dirs : List Direction} :
    bringInStep fuel dir w p s = .ok () t → Passes p w dirs t u → Passes p w (dir :: dirs) s u

namespace Change

theorem run_append (v : Value) : (append v).run w = (do let _ ← Read.view w; appendToView w v) := by
  unfold run
  exact askView_eq (fun _ => by rfl)

theorem run_insert (i : Int) (v : Value) : (insert i v).run w = (do
    let _ ← Read.view w
    let item ← itemFrom w v
    Edit.updateView w (fun c => { c with items := insertAt i item c.items })
    afterEdit .adding w) := by
  unfold run
  refine askView_eq (fun c => ?_)
  unfold silently
  simp only [bind_assoc]
  rfl

theorem run_extend (l : ListId) : (extend l).run w = (do let _ ← Read.view w; extendView w (.list l)) := by
  unfold run
  exact askView_eq (fun _ => by rfl)

theorem run_pop (i : Option Int) : (pop i).run w = (do let _ ← Read.view w; popFromView w (i.getD (-1))) := by
  unfold run
  cases i with
  | none => exact askView_eq (fun _ => by rfl)
  | some i => exact askView_eq (fun _ => by rfl)

theorem run_remove (v : Value) : (remove v).run w = (do let _ ← Read.view w; removeFromView w v) := by
  unfold run
  exact askView_eq (fun _ => by rfl)

end Change

/-- The items that a view shows. -/
def Store.ShowsItems (s : Store) (w : ViewId) (D : List Value) : Prop :=
  ∃ c, s.views[w.index]? = some c ∧ c.items = D

theorem stable_showsItems (hw : ¬ F.view w) (D : List Value) : Stable F (fun s => s.ShowsItems w D) := by
  rintro s t ⟨c,hc,hitems⟩ hF
  obtain ⟨d,hd,hkeeps⟩ := hF.view hc
  exact ⟨d,hd,(hkeeps.items hw).trans hitems⟩

theorem Store.ShowsItems.frame (h : s.ShowsItems w D) (hF : s.Frame F t) (hw : ¬ F.view w) : t.ShowsItems w D :=
  stable_showsItems hw D s t h hF

/-- A store with other items in a view. -/
def Store.showing (s : Store) (w : ViewId) (D : List Value) : Store := s.mapView w (fun c => { c with items := D })

theorem Store.frame_showing (h : F.view w) (D : List Value) : s.Frame F (s.showing w D) :=
  frame_mapView (fun _ => ⟨rfl,rfl,rfl,rfl,rfl,rfl,fun hn => absurd h hn⟩)

theorem Store.Frame.showing (hF : s.Frame .attributes t) (w : ViewId) (l : ListId) (D : List Value) :
    s.Frame (.editing w l) (t.showing w D) :=
  (hF.mono (Freedom.attributes_le w l)).trans (Store.frame_showing rfl D)

theorem Store.ShowsItems.other (h : s.ShowsItems w D) (D' : List Value) : (s.showing w D').ShowsItems w D' := by
  obtain ⟨c,hc,-⟩ := h
  refine ⟨{ c with items := D' },?_,rfl⟩
  rw [showing,mapView_get,if_pos rfl,hc]
  rfl

theorem Store.mapView_congr {f g : ViewCell → ViewCell} (h : ∀ c, s.views[w.index]? = some c → f c = g c) :
    s.mapView w f = s.mapView w g := by
  unfold Store.mapView
  congr 1
  refine Array.ext_getElem? (fun i => ?_)
  simp only [Array.getElem?_modify]
  split
  · next hi =>
    subst hi
    exact Option.map_congr h
  · rfl

theorem Passes.single (h : Passes p w [dir] s t) : ∃ fuel, bringInStep fuel dir w p s = .ok () t := by
  cases h with
  | cons hpass hnil =>
    cases hnil
    exact ⟨_,hpass⟩

theorem Passes.split (h : Passes p w (dirs ++ dirs') s t) : ∃ u, Passes p w dirs s u ∧ Passes p w dirs' u t := by
  induction dirs generalizing s with
  | nil => exact ⟨s,.nil s,h⟩
  | cons dir dirs ih =>
    cases h with
    | cons hpass hrest =>
      obtain ⟨u,hu,hu'⟩ := ih hrest
      exact ⟨u,.cons hpass hu,hu'⟩

/-- What single passes do to a list that is out of step with its view, a call does with its passes: `O` is
how it is out of step, `I` how it is in step. -/
theorem Passes.settle {D' : List Value} {O : List Value → List Value → Store → Prop} {I : List Value → Store → Prop}
    (h : Passes p w change.passes s u) (hmakes : change.Makes D xs D') (hout : O D D' s)
    (hadding : D.Sublist D' → ∀ fuel, bringInStep fuel .adding w p s = .ok () u → I D' u)
    (htaking : D'.Sublist D → ∀ fuel, bringInStep fuel .taking w p s = .ok () u → I D' u)
    (hboth : ∀ D s u, O D D' s → Passes p w [.taking,.adding] s u → I D' u) (hin : ∀ s, I D' s → O D' D' s) : I D' u := by
  rcases change.passes_cases with hdirs | hdirs | hdirs | hdirs
  all_goals rw [hdirs] at h
  · obtain ⟨fuel,hpass⟩ := h.single
    exact hadding (hmakes.adds hdirs) fuel hpass
  · obtain ⟨fuel,hpass⟩ := h.single
    exact htaking (hmakes.takes hdirs) fuel hpass
  · exact hboth D s u hout h
  · obtain ⟨t,hfirst,hsecond⟩ := h.split
    exact hboth D' t u (hin t (hboth D s t hout hfirst)) hsecond

/-- Passes over the list behind a view, one after the other, up to the one that fails. -/
inductive PassesTo (p : Parser) (w : ViewId) : List Direction → Store → EStateM.Result Fault Store Unit → Prop
  | nil (s : Store) : PassesTo p w [] s (.ok () s)
  | cons {s t : Store} {fuel : Nat} {dir : Direction} {dirs : List Direction} {r : EStateM.Result Fault Store Unit} :
    bringInStep (fuel + 1) dir w p s = .ok () t → PassesTo p w dirs t r → PassesTo p w (dir :: dirs) s r
  | stop {s t : Store} {fuel : Nat} {dir : Direction} {fault : Fault} (dirs : List Direction) :
    bringInStep (fuel + 1) dir w p s = .error fault t → PassesTo p w (dir :: dirs) s (.error fault t)

namespace PassesTo
variable {end_ : EStateM.Result Fault Store Unit}

theorem single (fuel : Nat) : PassesTo p w [dir] s (bringInStep (fuel + 1) dir w p s) := by
  cases h : bringInStep (fuel + 1) dir w p s with
  | ok r t => exact .cons h (.nil t)
  | error fault t => exact .stop [] h

theorem after (dir : Direction) (s : Store) : PassesTo p w [dir] s (afterEdit dir w p s) := single (4 * s.depth + 63)

theorem bind {e' : Edit Unit} (h : PassesTo p w dirs s end_) (he : e p t = end_) (h' : ∀ s, PassesTo p w dirs' s (e' p s)) :
    PassesTo p w (dirs ++ dirs') s ((do e; e' : Edit Unit) p t) := by
  rw [Edit.run_bind,he]
  induction h with
  | nil s => exact h' s
  | cons hpass _ ih => exact .cons hpass (ih he)
  | stop dirs hpass => exact .stop _ hpass

theorem realign (s : Store) : PassesTo p w [.taking,.adding] s (realign w p s) := (after .taking s).bind rfl (after .adding)

theorem passes (h : PassesTo p w dirs s end_) (hend : end_ = .ok r t) : Passes p w dirs s t := by
  induction h with
  | nil s =>
    cases hend
    exact .nil t
  | cons hpass _ ih => exact .cons hpass (ih hend)
  | stop dirs hpass => cases hend

end PassesTo

section Parts
variable {D : List Value} (hs : s.ShowsItems w D)
include hs

theorem mapView_items {f : List Value → List Value} :
    s.mapView w (fun c => { c with items := f c.items }) = s.showing w (f D) := by
  obtain ⟨c,hc,rfl⟩ := hs
  refine Store.mapView_congr (fun d hd => ?_)
  rw [hc] at hd
  cases hd
  rfl

theorem PassesTo.updated (f : List Value → List Value) (h : PassesTo p w dirs (s.showing w (f D)) (e p (s.showing w (f D)))) :
    PassesTo p w dirs (s.showing w (f D))
      ((do Edit.updateView w (fun c => { c with items := f c.items }); e : Edit Unit) p s) := by
  rw [← mapView_items hs] at h ⊢
  exact h

/-- Taking out an item fails at once if there is none. -/
theorem popFromView_course (i : Int) : (∃ fault, popFromView w i p s = .error fault s) ∨
    ∃ j, IsIndex D.length i j ∧ PassesTo p w [.taking] (s.showing w (D.eraseIdx j)) (popFromView w i p s) := by
  obtain ⟨c,hc,rfl⟩ := id hs
  have hpop : popFromView w i p s = popItem (4 * s.depth + 64) w i p s := rfl
  rw [hpop,popItem,Edit.view_known hc]
  cases hj : indexIn? c.items.length i with
  | none => exact .inl ⟨_,rfl⟩
  | some j => exact .inr ⟨j,indexIn_some hj,.updated hs (fun xs => xs.eraseIdx j) (.single _)⟩

end Parts

theorem equalAt_node_iff {fuel : Nat} {m : NodeId} {b : Bool} (h : equalAt fuel (.node m) v s = .ok b) :
    b = true ↔ v = .node m := by
  cases fuel with
  | zero =>
    simp only [equalAt] at h
    exact absurd h Read.throw_ok
  | succ fuel =>
    cases v with
    | node n =>
      simp only [equalAt,Read.pure_ok] at h
      rw [← h,beq_iff_eq,Value.node.injEq]
      exact eq_comm
    | _ =>
      simp only [equalAt,Value.toDatum?] at h
      rw [if_neg (by simp [Value.is]),Read.bind_ok] at h
      obtain ⟨a,ha,h⟩ := h
      obtain rfl : none = a := Read.pure_ok.mp ha
      obtain ⟨a,-,h⟩ := Read.bind_ok.mp h
      obtain rfl : false = b := Read.pure_ok.mp h
      simp

theorem indexOf_ok (hnodes : ∀ x ∈ D, ∃ n, x = .node n) (h : indexOf? v D s = .ok (some j)) :
    ∃ before after, D = before ++ v :: after ∧ v ∉ before ∧ before.length = j := by
  induction D generalizing j with
  | nil => cases h
  | cons x D ih =>
    obtain ⟨n,rfl⟩ := hnodes x List.mem_cons_self
    simp only [indexOf?,Read.bind_ok] at h
    obtain ⟨b,hb,h⟩ := h
    simp only [equal,Read.bind_ok] at hb
    obtain ⟨_,-,hb⟩ := hb
    have hiff := equalAt_node_iff hb
    cases b with
    | true =>
      obtain rfl := hiff.mp rfl
      obtain rfl : 0 = j := Option.some.inj (Except.ok.inj h)
      exact ⟨[],D,rfl,by simp,rfl⟩
    | false =>
      simp only [Bool.false_eq_true,if_false,Read.bind_ok,Read.pure_ok] at h
      obtain ⟨k,hk,h⟩ := h
      obtain ⟨i,rfl,rfl⟩ := Option.map_eq_some_iff.mp h
      obtain ⟨before,after,rfl,hnot,rfl⟩ := ih (List.forall_mem_cons.mp hnodes).2 hk
      refine ⟨.node n :: before,after,rfl,?_,rfl⟩
      simp only [List.mem_cons,not_or]
      exact ⟨fun h => Bool.false_ne_true (hiff.mpr h),hnot⟩

/-- Calls that are given a list of values. -/
def Change.takesList : Change → Bool
  | .extend _ | .putSpan _ _ => true
  | _ => false

theorem itemsFrom_list {c : ViewCell} (hc : s.views[w.index]? = some c) (hform : c.form ≠ .document ∧ c.form ≠ .decorators) :
    (∃ fault, itemsFrom w (.list l) p s = .error fault s) ∨
      ∃ d, s.lists[l.index]? = some d ∧ itemsFrom w (.list l) p s = itemsFromEach w d.items p s := by
  have heach : itemsFrom w (.list l) p s = (do itemsFromEach w (← items (.list l)) : Edit (List Value)) p s := by
    refine (Edit.view_known hc).trans ?_
    cases hf : c.form with
    | document => exact absurd hf hform.1
    | decorators => exact absurd hf hform.2
    | _ => rfl
  rw [heach]
  cases h : items (.list l) s with
  | error fault => exact .inl ⟨fault,Edit.read_failed h⟩
  | ok vs =>
    obtain ⟨d,hd,rfl⟩ := items_list_ok.mp h
    exact .inr ⟨d,hd,Edit.read_known h⟩

/-- A value is converted by itself as in a list. -/
theorem itemsFromEach_single (w : ViewId) (v : Value) (p : Parser) (s : Store) :
    (∃ fault u, itemFrom w v p s = .error fault u ∧ itemsFromEach w [v] p s = .error fault u) ∨
      ∃ x u, itemFrom w v p s = .ok x u ∧ itemsFromEach w [v] p s = .ok [x] u := by
  cases h : itemFrom w v p s with
  | ok x u => exact .inr ⟨x,u,rfl,Edit.bind_known h⟩
  | error fault u => exact .inl ⟨fault,u,rfl,Edit.bind_failed h⟩

theorem itemsFromEach_nodes {vs : List Value} (h : itemsFromEach w vs p s = .ok xs t) :
    List.Forall₂ (fun v x => ∀ m, v = .node m → x = v) vs xs := by
  induction vs generalizing s xs with
  | nil =>
    obtain ⟨rfl,-⟩ := Edit.pure_ok.mp h
    exact .nil
  | cons v vs ih =>
    simp only [itemsFromEach,Edit.bind_ok,Edit.pure_ok] at h
    obtain ⟨x,_,hx,ys,_,hys,rfl,rfl⟩ := h
    refine .cons ?_ (ih hys)
    rintro m rfl
    exact itemFrom_node hx

/-- How a call goes. It can fail before it changes anything, while its values are converted or because of the position it is
given. Otherwise it changes the items as in an ordinary list, and then makes its passes. -/
inductive Change.Course (change : Change) (p : Parser) (w : ViewId) (s : Store) (D : List Value) :
    EStateM.Result Fault Store Unit → Prop
  | refused (fault : Fault) : change.Course p w s D (.error fault s)
  | unread {fault : Fault} {u : Store} : itemsFromEach w (change.values s) p s = .error fault u →
    change.Course p w s D (.error fault u)
  | misplaced {xs : List Value} {u : Store} (fault : Fault) : itemsFromEach w (change.values s) p s = .ok xs u →
    change.Course p w s D (.error fault u)
  | made {xs D' : List Value} {u : Store} {r : EStateM.Result Fault Store Unit} :
    itemsFromEach w (change.values s) p s = .ok xs u → change.Makes D xs D' →
    PassesTo p w change.passes (u.showing w D') r → change.Course p w s D r

section Running
variable (hs : s.ShowsItems w D) (hnodes : ∀ x ∈ D, ∃ n, x = .node n)
  (hform : ∀ c, s.views[w.index]? = some c → change.takesList = true → c.form ≠ .document ∧ c.form ≠ .decorators)
  (hkeep : ∀ xs u, itemsFromEach w (change.values s) p s = .ok xs u → u.ShowsItems w D)
include hs hnodes hform hkeep

theorem Change.run_course : change.Course p w s D (change.run w p s) := by
  obtain ⟨c,hc,rfl⟩ := id hs
  have hread : ∀ {f : ViewCell → Edit Unit}, (do f (← Read.view w) : Edit Unit) p s = f c p s :=
    Edit.view_known hc
  have hitems : ∀ {l} {f : List Value → Edit Unit}, change.takesList = true →
      (∀ d, s.lists[l.index]? = some d → change.values s = d.items) →
      (∀ xs u, itemsFromEach w (change.values s) p s = .ok xs u → change.Course p w s c.items (f xs p u)) →
      change.Course p w s c.items ((do f (← itemsFrom w (.list l)) : Edit Unit) p s) := by
    intro l f htakes hvalues hrest
    rcases itemsFrom_list hc (hform c hc htakes) with ⟨fault,hxs⟩ | ⟨d,hd,hxs⟩
    · exact Edit.bind_failed hxs ▸ .refused fault
    · rw [← hvalues d hd] at hxs
      cases hrun : itemsFromEach w (change.values s) p s with
      | error fault u => exact Edit.bind_failed (hxs.trans hrun) ▸ .unread hrun
      | ok xs u => exact Edit.bind_known (hxs.trans hrun) ▸ hrest xs u hrun
  cases change with
  | append v =>
    have hrun : (append v).run w p s = insertItem (4 * s.depth + 64) w c.items.length v p s := by
      rw [run_append,hread]
      exact hread
    rw [hrun,insertItem]
    rcases itemsFromEach_single w v p s with ⟨fault,u,hx,hxs⟩ | ⟨x,u,hx,hxs⟩
    · exact Edit.bind_failed hx ▸ .unread hxs
    · have hgap : gap c.items.length c.items.length = c.items.length := by
        unfold gap
        omega
      rw [Edit.bind_known hx]
      refine .made hxs ⟨x,rfl,?_⟩ (.updated (hkeep _ _ hxs) (insertAt c.items.length x) (.single _))
      rw [insertAt_eq,hgap,List.take_length,List.drop_length]
  | insert i v =>
    rw [run_insert,hread]
    rcases itemsFromEach_single w v p s with ⟨fault,u,hx,hxs⟩ | ⟨x,u,hx,hxs⟩
    · exact Edit.bind_failed hx ▸ .unread hxs
    · rw [Edit.bind_known hx]
      exact .made hxs ⟨x,rfl,insertAt_eq ..⟩ (.updated (hkeep _ _ hxs) (insertAt i x) (.after _ _))
  | extend l =>
    have hrun : (extend l).run w p s = (do
        let new ← itemsFrom w (.list l)
        Edit.updateView w (fun c => { c with items := c.items ++ new })
        afterEdit .adding w : Edit Unit) p s := by
      rw [run_extend,hread,extendView,hread,if_neg (by simpa using (hform c hc rfl).2)]
    rw [hrun]
    refine hitems rfl (fun d hd => by simp only [values,hd]) (fun xs u hxs => ?_)
    exact .made hxs rfl (.updated (hkeep _ _ hxs) (fun D => D ++ xs) (.after _ _))
  | pop i =>
    rw [run_pop,hread]
    rcases popFromView_course hs (i.getD (-1)) with ⟨fault,h⟩ | ⟨j,hj,h⟩
    · exact h ▸ .refused fault
    · exact .made rfl ⟨j,hj,rfl⟩ h
  | remove v =>
    rw [run_remove,hread,removeFromView,hread]
    cases hfound : indexOf v c.items s with
    | error fault => exact Edit.read_failed hfound ▸ .refused fault
    | ok j =>
      rw [Edit.read_known hfound]
      rcases popFromView_course hs j with ⟨fault,h⟩ | ⟨i,hi,h⟩
      · exact h ▸ .refused fault
      · obtain ⟨found,hsearch,hj⟩ := Read.bind_ok.mp hfound
        cases found with
        | none => exact absurd hj Read.throw_ok
        | some j' =>
          obtain rfl : j' = j := Read.pure_ok.mp hj
          obtain ⟨before,after,hsplit,hnot,rfl⟩ := indexOf_ok hnodes hsearch
          rw [hsplit] at hi h ⊢
          obtain rfl : before.length = i := by
            unfold IsIndex at hi
            simp only [List.length_append,List.length_cons] at hi
            omega
          refine .made rfl ⟨before,after,rfl,hnot,?_⟩ h
          rw [List.eraseIdx_append_of_length_le (Nat.le_refl _)]
          simp
  | delete spot =>
    cases spot with
    | index i =>
      change Course _ p w s _ (popFromView w i p s)
      rcases popFromView_course hs i with ⟨fault,h⟩ | ⟨j,hj,h⟩
      · exact h ▸ .refused fault
      · exact .made rfl ⟨j,hj,rfl⟩ h
    | span span => exact .made rfl (replace_eq ..) (.updated hs (span.replace []) (.after _ _))
  | put i v =>
    change Course _ p w s _ (setItem w i v p s)
    unfold setItem
    rcases itemsFromEach_single w v p s with ⟨fault,u,hx,hxs⟩ | ⟨x,u,hx,hxs⟩
    · exact Edit.bind_failed hx ▸ .unread hxs
    · obtain ⟨d,hd,hshown⟩ := hkeep _ _ hxs
      rw [Edit.bind_known hx,Edit.view_known hd,hshown]
      cases hj : indexIn? c.items.length i with
      | none => exact .misplaced _ hxs
      | some j => exact .made hxs ⟨x,j,rfl,indexIn_some hj,rfl⟩ (.updated (hkeep _ _ hxs) (fun D => D.set j x) (.realign _))
  | putSpan span l =>
    change Course _ p w s _ ((do replaceSpan w span (.list l); realign w : Edit Unit) p s)
    rw [replaceSpan,bind_assoc]
    refine hitems rfl (fun d hd => by simp only [values,hd]) (fun xs u hxs => ?_)
    exact .made hxs (replace_eq ..) (.bind (.updated (hkeep _ _ hxs) (span.replace xs) (.realign _)) rfl .realign)

/-- A call that succeeds converts what it is given, changes the items as in an ordinary list, and then
makes its passes. -/
theorem Change.run_ok (h : change.run w p s = .ok r t) :
    ∃ xs u D', itemsFromEach w (change.values s) p s = .ok xs u ∧ change.Makes D xs D' ∧
      Passes p w change.passes (u.showing w D') t := by
  have hcourse := h ▸ Change.run_course hs hnodes hform hkeep
  cases hcourse with
  | made hxs hmakes hpasses => exact ⟨_,_,_,hxs,hmakes,hpasses.passes rfl⟩

end Running

/-- What holds of the items of a view, and of those made from the values given, holds of the items that
a call leaves. -/
theorem Change.run_made {P : Store → Value → Prop} {l : ListId} {L : List Value}
    (hP : ∀ x s t, P s x → s.Frame (.editing w l) t → P t x)
    (htyped : ∀ s x, P s x → s.Typed x) (hshown : s.ShowsItems w D) (hlist : s.HasItems l .nodes L) (hD : ∀ x ∈ D, P s x)
    (hplain : ∀ c, s.views[w.index]? = some c → change.takesList = true → c.form ≠ .document ∧ c.form ≠ .decorators)
    (hconvert : ∀ xs t, itemsFromEach w (change.values s) p s = .ok xs t → s.Frame .attributes t ∧ ∀ x ∈ xs, P t x)
    (hrun : change.run w p s = .ok r u) :
    ∃ xs t D', itemsFromEach w (change.values s) p s = .ok xs t ∧ change.Makes D xs D' ∧ s.Frame .attributes t ∧
      s.Frame (.editing w l) (t.showing w D') ∧ (t.showing w D').ShowsItems w D' ∧ (t.showing w D').HasItems l .nodes L ∧
      (∀ x ∈ D', P (t.showing w D') x) ∧ Passes p w change.passes (t.showing w D') u := by
  obtain ⟨xs,t,D',hxs,hmakes,hpasses⟩ := Change.run_ok hshown (fun x hx => (htyped s x (hD x hx)).node) hplain
    (fun xs t hxs => hshown.frame (hconvert xs t hxs).1 id) hrun
  obtain ⟨hF,hitems⟩ := hconvert xs t hxs
  have hF' := hF.showing w l D'
  refine ⟨xs,t,D',hxs,hmakes,hF,hF',(hshown.frame hF id).other D',(hlist.frame hF id :),fun x hx => ?_,hpasses⟩
  rcases hmakes.mem hx with hx | hx
  · exact hP x _ _ (hD x hx) hF'
  · exact hP x _ _ (hitems x hx) (Store.frame_showing rfl D')

section Failing
variable {F : Freedom} {K : Store → Prop} {end_ : EStateM.Result Fault Store Unit}

theorem PassesTo.frame {fault : Fault} (hpass : ∀ fuel dir, Gives F K (fun _ _ => True) (bringInStep fuel dir w))
    (h : PassesTo p w dirs s end_) (hs : K s) (hend : end_ = .error fault u) : s.Frame F u := by
  induction h with
  | nil s => cases hend
  | cons hrun _ ih =>
    obtain ⟨hF,hK,-⟩ := Edit.Meets.frame_ok (hpass _ _) hs hrun
    exact hF.trans (ih hK hend)
  | stop dirs hrun =>
    cases hend
    exact Edit.Meets.frame_error (hpass _ _) hs hrun

/-- A call keeps to what converting values and the passes keep to, also when it fails. -/
theorem Change.frame_of_error {form : ViewForm} {fault : Fault} (hK : Stable (.editing w l) K) (hs : K s)
    (hD : s.ShowsItems w D) (hnodes : ∀ x ∈ D, ∃ n, x = .node n)
    (hform : change.takesList = true → form ≠ .document ∧ form ≠ .decorators)
    (hview : ∀ s, K s → ∃ c, s.views[w.index]? = some c ∧ c.target = .list l ∧ c.form = form)
    (hgiven : (itemsFromEach w (change.values s)).Meets (fun s' => s' = s) (Store.Frame .attributes) (fun _ _ => True))
    (hexpected : Gives (.editing w l) K (fun _ _ => True) (expectedItems w))
    (halign : ∀ pairs, Within .attributes (alignSeparators form pairs)) (hrun : change.run w p s = .error fault u) :
    s.Frame (.editing w l) u := by
  have hle := Freedom.attributes_le w l
  have hpass := bringInStep_gives hK hview rfl hexpected
    (fun pairs => .of_within hK ((halign pairs).mono hle) (fun _ _ _ _ _ _ => trivial))
  have hread : ∀ xs t, itemsFromEach w (change.values s) p s = .ok xs t → s.Frame .attributes t :=
    fun xs t hxs => (Edit.Meets.frame_ok hgiven rfl hxs).1
  obtain ⟨c,hc,-,rfl⟩ := hview s hs
  have hcourse := hrun ▸ Change.run_course hD hnodes (fun c' hc' => (Option.some.inj (hc.symm.trans hc')) ▸ hform)
    (fun xs t hxs => hD.frame (hread xs t hxs) id)
  cases hcourse with
  | refused => exact .refl _ s
  | unread hxs => exact (Edit.Meets.frame_error hgiven rfl hxs).mono hle
  | misplaced _ hxs => exact (hread _ _ hxs).mono hle
  | @made xs D' t _ hxs _ hpasses =>
    have hF := (hread _ _ hxs).showing w l D'
    exact hF.trans (hpasses.frame hpass (hK _ _ hs hF) rfl)

end Failing

/-- Calls on a view, one after the other, with values of some sort. A call that fails may be followed by
others as long as it has changed neither the view nor the list behind it. -/
inductive Calls (given : Store → Value → Prop) (p : Parser) (w : ViewId) (l : ListId) (s : Store) : Store → Prop
  | none : Calls given p w l s s
  | done {t u : Store} {change : Change} : Calls given p w l s t → (∀ v ∈ change.values t, given t v) →
    change.run w p t = .ok () u → Calls given p w l s u
  | failed {t u : Store} {change : Change} {fault : Fault} : Calls given p w l s t →
    (∀ v ∈ change.values t, given t v) → change.run w p t = .error fault u →
    (∀ D, t.ShowsItems w D → u.ShowsItems w D) → (∀ L, t.HasItems l .nodes L → u.HasItems l .nodes L) →
    Calls given p w l s u

end CodeTree
