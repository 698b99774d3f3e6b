import CodeTree.Lookup

/-! # Runs of questions and edits

How a chain of questions or edits runs: it succeeds exactly when each link does. A contract says what
an edit may assume of a store and what it then guarantees, also when it fails half-way: the frame
holds between the first store and the last in both cases.
-/
namespace CodeTree
variable {α β : Type} {e : Fault} {p : Parser} {s t : Store} {text : String}

namespace Read

@[simp] theorem bind_ok {x : Read α} {f : α → Read β} {b : β} : (x >>= f) s = .ok b ↔ ∃ a, x s = .ok a ∧ f a s = .ok b := by
  change (x s).bind (fun a => f a s) = .ok b ↔ _
  cases x s with
  | ok a => simp [Except.bind]
  | error e => simp [Except.bind]

/-- A question whose answer is known asks on with it. -/
theorem bind_known {x : Read α} {f : α → Read β} {a : α} (ha : x s = .ok a) : (x >>= f) s = f a s := by
  change (x s).bind (fun a => f a s) = f a s
  rw [ha]
  rfl

@[simp] theorem pure_ok {a b : α} : (pure a : Read α) s = .ok b ↔ a = b := by
  change (Except.ok a : Except Fault α) = .ok b ↔ _
  simp

@[simp] theorem throw_ok {b : α} : ¬ (throw e : Read α) s = .ok b := by
  intro h
  cases h

@[simp] theorem lift_ok {r : Except Fault α} {b : α} : Read.lift r s = .ok b ↔ r = .ok b :=
  Iff.rfl

section Cells
variable {n : NodeId} {c : NodeCell} {l : ListId} {lc : ListCell} {w : ViewId} {vc : ViewCell}

@[simp] theorem node_ok : Read.node n s = .ok c ↔ s.nodes[n.index]? = some c := by
  unfold Read.node
  cases s.nodes[n.index]? <;> simp

@[simp] theorem list_ok : Read.list l s = .ok lc ↔ s.lists[l.index]? = some lc := by
  unfold Read.list
  cases s.lists[l.index]? <;> simp

@[simp] theorem view_ok : Read.view w s = .ok vc ↔ s.views[w.index]? = some vc := by
  unfold Read.view
  cases s.views[w.index]? <;> simp

theorem node_known {f : NodeCell → Read β} (hc : s.nodes[n.index]? = some c) : (Read.node n >>= f) s = f c s :=
  bind_known (node_ok.mpr hc)

theorem list_known {f : ListCell → Read β} (hl : s.lists[l.index]? = some lc) : (Read.list l >>= f) s = f lc s :=
  bind_known (list_ok.mpr hl)

theorem view_known {f : ViewCell → Read β} (hw : s.views[w.index]? = some vc) : (Read.view w >>= f) s = f vc s :=
  bind_known (view_ok.mpr hw)

end Cells

@[simp] theorem depth_ok {n : Nat} : Read.depth s = .ok n ↔ s.depth = n := by
  unfold Read.depth
  simp

end Read

namespace Edit

theorem run_bind (x : Edit α) (f : α → Edit β) (p : Parser) (s : Store) :
    (x >>= f) p s = match x p s with
      | .ok a t => f a p t
      | .error e t => .error e t := by
  change EStateM.bind (x p) (fun a => f a p) s = _
  unfold EStateM.bind
  cases x p s <;> rfl

@[simp] theorem bind_ok {x : Edit α} {f : α → Edit β} {b : β} :
    (x >>= f) p s = .ok b t ↔ ∃ a u, x p s = .ok a u ∧ f a p u = .ok b t := by
  rw [run_bind]
  cases x p s with
  | ok a u =>
    constructor
    · intro h
      exact ⟨a,u,rfl,h⟩
    · rintro ⟨a',u',h,h'⟩
      cases h
      exact h'
  | error e u => simp

@[simp] theorem pure_ok {a b : α} : (pure a : Edit α) p s = .ok b t ↔ a = b ∧ s = t := by
  change EStateM.Result.ok a s = .ok b t ↔ _
  simp

@[simp] theorem throw_ok {b : α} : ¬ (throw e : Edit α) p s = .ok b t := by
  intro h
  cases h

@[simp] theorem read_ok {r : Read α} {b : α} : (liftM r : Edit α) p s = .ok b t ↔ r s = .ok b ∧ s = t := by
  change Edit.read r p s = _ ↔ _
  unfold Edit.read
  cases r s <;> simp

theorem bind_known {x : Edit α} {f : α → Edit β} {a : α} (h : x p s = .ok a t) : (x >>= f) p s = f a p t := by
  rw [run_bind,h]

theorem bind_failed {x : Edit α} {f : α → Edit β} (h : x p s = .error e t) : (x >>= f) p s = .error e t := by
  rw [run_bind,h]

theorem read_failed {r : Read α} {f : α → Edit β} (h : r s = .error e) : ((liftM r : Edit α) >>= f) p s = .error e s := by
  refine bind_failed ?_
  change Edit.read r p s = _
  unfold Edit.read
  rw [h]

theorem read_known {r : Read α} {f : α → Edit β} {a : α} (h : r s = .ok a) : ((liftM r : Edit α) >>= f) p s = f a p s := by
  rw [run_bind,read_ok.mpr ⟨h,rfl⟩]

theorem node_known {n : NodeId} {c : NodeCell} {f : NodeCell → Edit β} (hc : s.nodes[n.index]? = some c) :
    ((liftM (Read.node n) : Edit NodeCell) >>= f) p s = f c p s := read_known (Read.node_ok.mpr hc)

theorem view_known {w : ViewId} {c : ViewCell} {f : ViewCell → Edit β} (hc : s.views[w.index]? = some c) :
    ((liftM (Read.view w) : Edit ViewCell) >>= f) p s = f c p s := read_known (Read.view_ok.mpr hc)

/-- An edit that goes on with what it reads. -/
theorem ask_ok {r : Read α} {f : α → Edit β} {b : β} :
    (do f (← r) : Edit β) p s = .ok b t ↔ ∃ a, r s = .ok a ∧ f a p s = .ok b t := by
  simp only [bind_ok,read_ok]
  constructor
  · rintro ⟨a,_,⟨ha,rfl⟩,h⟩
    exact ⟨a,ha,h⟩
  · rintro ⟨a,ha,h⟩
    exact ⟨a,s,⟨ha,rfl⟩,h⟩

@[simp] theorem lift_ok {r : Except Fault α} {b : α} : Edit.lift r p s = .ok b t ↔ r = .ok b ∧ s = t := by
  unfold Edit.lift
  cases r <;> simp

@[simp] theorem parse_ok {d : Datum} : Edit.parse text p s = .ok d t ↔ p text = .ok d ∧ s = t := by
  unfold Edit.parse
  cases p text <;> simp

/-- The edit succeeds, and its result and the store it leaves pass a check. -/
def ensures (e : Edit α) (p : Parser) (s : Store) (check : α → Store → Bool) : Bool :=
  match e p s with
  | .ok a t => check a t
  | .error _ _ => false

theorem ensures_iff {e : Edit α} {check : α → Store → Bool} :
    e.ensures p s check = true ↔ ∃ a t, e p s = .ok a t ∧ check a t = true := by
  unfold ensures
  cases e p s <;> simp [and_assoc]

def succeeds (e : Edit α) (p : Parser) (s : Store) : Bool :=
  match e p s with
  | .ok _ _ => true
  | .error _ _ => false

theorem succeeds_iff {e : Edit α} : e.succeeds p s = true ↔ ∃ a t, e p s = .ok a t := by
  unfold succeeds
  cases e p s <;> simp

/-- What holds of every result of an edit. -/
def Yields (e : Edit α) (p : Parser) (s : Store) (after : α → Store → Prop) : Prop :=
  ∀ a t, e p s = .ok a t → after a t

/-- From stores with `before`, the edit leads along `frame`, and when it succeeds `after` holds. -/
def Meets (e : Edit α) (before : Store → Prop) (frame : Store → Store → Prop)
    (after : α → Store → Prop) : Prop :=
  ∀ p s, before s → match e p s with
    | .ok a t => frame s t ∧ after a t
    | .error _ t => frame s t

/-- Whatever store it begins with, the edit leads along a relation. -/
abbrev Stays (e : Edit α) (R : Store → Store → Prop) : Prop := e.Meets (fun _ => True) R (fun _ _ => True)

variable {before before' : Store → Prop} {frame : Store → Store → Prop} {after after' : α → Store → Prop}

theorem Meets.frame_ok {e : Edit α} (h : e.Meets before frame after) {a : α} (hs : before s) (he : e p s = .ok a t) :
    frame s t ∧ after a t := by
  have hm := h p s hs
  rw [he] at hm
  exact hm

theorem Meets.frame_error {e : Edit α} (h : e.Meets before frame after) {fault : Fault} (hs : before s)
    (he : e p s = .error fault t) : frame s t := by
  have hm := h p s hs
  rw [he] at hm
  exact hm

theorem Meets.weaken {e : Edit α} (h : e.Meets before frame after) (hb : ∀ s, before' s → before s)
    (ha : ∀ a s, after a s → after' a s) : e.Meets before' frame after' := by
  intro p s hs
  have hm := h p s (hb s hs)
  split
  · next a t he =>
    rw [he] at hm
    exact ⟨hm.1,ha a t hm.2⟩
  · next e t he =>
    rw [he] at hm
    exact hm

theorem Meets.reframe {frame' : Store → Store → Prop} {e : Edit α} (h : e.Meets before frame after)
    (hframe : ∀ s t, frame s t → frame' s t) : e.Meets before frame' after := by
  intro p s hs
  have hm := h p s hs
  split
  · next a t he =>
    rw [he] at hm
    exact ⟨hframe s t hm.1,hm.2⟩
  · next fault t he =>
    rw [he] at hm
    exact hframe s t hm

theorem Stays.and {R R' : Store → Store → Prop} {e : Edit α} (h : e.Stays R) (h' : e.Stays R') :
    e.Stays (fun s t => R s t ∧ R' s t) := by
  intro p s hs
  have hm := h p s hs
  have hm' := h' p s hs
  split
  · next a t he =>
    rw [he] at hm hm'
    exact ⟨⟨hm.1,hm'.1⟩,trivial⟩
  · next fault t he =>
    rw [he] at hm hm'
    exact ⟨hm,hm'⟩

theorem Meets.bind {x : Edit α} {f : α → Edit β} {final : β → Store → Prop}
    (ht : ∀ s t u, frame s t → frame t u → frame s u)
    (hx : x.Meets before frame after) (hf : ∀ a, (f a).Meets (after a) frame final) :
    (x >>= f).Meets before frame final := by
  intro p s hs
  rw [run_bind]
  have hm := hx p s hs
  cases hr : x p s with
  | error e t =>
    rw [hr] at hm
    exact hm
  | ok a t =>
    rw [hr] at hm
    have hn := hf a p t hm.2
    dsimp only
    split
    · next b u he =>
      rw [he] at hn
      exact ⟨ht s t u hm.1 hn.1,hn.2⟩
    · next e u he =>
      rw [he] at hn
      exact ht s t u hm.1 hn

theorem Meets.pure (hr : ∀ s, frame s s) {a : α} (h : ∀ s, before s → after a s) :
    (Pure.pure a : Edit α).Meets before frame after :=
  fun _ s hs => ⟨hr s,h s hs⟩

theorem Meets.throw (hr : ∀ s, frame s s) : (MonadExcept.throw e : Edit α).Meets before frame after :=
  fun _ s _ => hr s

/-- A question changes nothing, and its answer is known afterwards. -/
theorem Meets.read (hr : ∀ s, frame s s) {r : Read α} (h : ∀ a s, before s → r s = .ok a → after a s) :
    (liftM r : Edit α).Meets before frame after := by
  intro p s hs
  change match Edit.read r p s with
    | .ok a t => frame s t ∧ after a t
    | .error _ t => frame s t
  unfold Edit.read
  cases hr' : r s with
  | ok a => exact ⟨hr s,h a s hs hr'⟩
  | error e => exact hr s

/-- An edit that depends on the answer to a question. -/
theorem Meets.ask (hr : ∀ s, frame s s) {r : Read α} {f : α → Edit β} {final : β → Store → Prop}
    (h : ∀ s a, before s → r s = .ok a → (f a).Meets before frame final) :
    (do f (← r) : Edit β).Meets before frame final := by
  intro p s hs
  cases hr' : r s with
  | ok a =>
    rw [read_known hr']
    exact h s a hs hr' p s hs
  | error e =>
    rw [read_failed hr']
    exact hr s

theorem Meets.lift (hr : ∀ s, frame s s) {r : Except Fault α} (h : ∀ a s, before s → r = .ok a → after a s) :
    (Edit.lift r).Meets before frame after := by
  intro p s hs
  unfold Edit.lift
  cases r with
  | ok a => exact ⟨hr s,h a s hs rfl⟩
  | error e => exact hr s

theorem Meets.parse (hr : ∀ s, frame s s) {after : Datum → Store → Prop} (h : ∀ d s, before s → after d s) :
    (Edit.parse text).Meets before frame after := by
  intro p s hs
  unfold Edit.parse
  cases p text with
  | ok d => exact ⟨hr s,h d s hs⟩
  | error e => exact hr s

end Edit

section Outcomes
variable {good : α → Store → Prop} {bad : Store → Prop}

/-- How an edit ends: what holds if it succeeds, and of the store that it leaves if it fails. -/
def Edit.Ends (e : Edit α) (p : Parser) (s : Store) (good : α → Store → Prop) (bad : Store → Prop) : Prop :=
  match e p s with
  | .ok a t => good a t
  | .error _ t => bad t

namespace Edit.Ends

theorem ok {e : Edit α} (h : e.Ends p s good bad) {a : α} (he : e p s = .ok a t) : good a t := by
  unfold Edit.Ends at h
  rwa [he] at h

theorem error {e : Edit α} (h : e.Ends p s good bad) {fault : Fault} (he : e p s = .error fault t) : bad t := by
  unfold Edit.Ends at h
  rwa [he] at h

theorem of_run {e : Edit α} (hgood : ∀ a t, e p s = .ok a t → good a t) (hbad : ∀ fault t, e p s = .error fault t → bad t) :
    e.Ends p s good bad := by
  unfold Edit.Ends
  split
  · next a t he => exact hgood a t he
  · next fault t he => exact hbad fault t he

theorem imp {e : Edit α} {good' : α → Store → Prop} {bad' : Store → Prop} (h : e.Ends p s good bad)
    (hgood : ∀ a t, good a t → good' a t) (hbad : ∀ t, bad t → bad' t) : e.Ends p s good' bad' := by
  unfold Edit.Ends at h ⊢
  split
  · next a t he =>
    rw [he] at h
    exact hgood a t h
  · next fault t he =>
    rw [he] at h
    exact hbad t h

theorem bind {x : Edit α} {f : α → Edit β} {good : β → Store → Prop} (h : x.Ends p s (fun a t => (f a).Ends p t good bad) bad) :
    (x >>= f).Ends p s good bad := by
  cases he : x p s with
  | ok a t =>
    have hrest := h.ok he
    unfold Edit.Ends at hrest ⊢
    rw [Edit.run_bind,he]
    exact hrest
  | error fault t =>
    unfold Edit.Ends
    rw [Edit.run_bind,he]
    exact h.error he

theorem pure {a : α} (h : good a s) : (Pure.pure a : Edit α).Ends p s good bad := h

theorem throw {fault : Fault} (h : bad s) : (MonadExcept.throw fault : Edit α).Ends p s good bad := h

theorem read {r : Read α} (hgood : ∀ a, r s = .ok a → good a s) (hbad : bad s) : (liftM r : Edit α).Ends p s good bad := by
  change (Edit.read r).Ends p s good bad
  unfold Edit.Ends Edit.read
  cases hr : r s with
  | ok a => exact hgood a hr
  | error fault => exact hbad

theorem ask {r : Read α} {f : α → Edit β} {good : β → Store → Prop} (h : ∀ a, r s = .ok a → (f a).Ends p s good bad)
    (hbad : bad s) : (do f (← r) : Edit β).Ends p s good bad :=
  .bind (.read h hbad)

theorem lift {r : Except Fault α} (hgood : ∀ a, r = .ok a → good a s) (hbad : bad s) : (Edit.lift r).Ends p s good bad := by
  cases r with
  | ok a => exact hgood a rfl
  | error fault => exact hbad

theorem parse {text : String} {good : Datum → Store → Prop} (hgood : ∀ d, p text = .ok d → good d s) (hbad : bad s) :
    (Edit.parse text).Ends p s good bad := by
  unfold Edit.Ends Edit.parse
  cases hd : p text with
  | ok d => exact hgood d hd
  | error fault => exact hbad

theorem ite {b : Bool} {x y : Edit α} (hx : b = true → x.Ends p s good bad) (hy : b = false → y.Ends p s good bad) :
    (if b then x else y).Ends p s good bad := by
  cases b with
  | true => exact hx rfl
  | false => exact hy rfl

end Edit.Ends

end Outcomes

end CodeTree
