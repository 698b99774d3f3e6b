import CodeTree.Build
import CodeTree.Proofs.Cells

/-! # Building only adds

Building a node touches none of the cells that were there before, whether it succeeds or breaks off
half-way. While a node is being filled it is the one old cell that changes.
-/
namespace CodeTree
variable {α β : Type} {f : NodeCell → NodeCell} {n : NodeId} {p : Parser} {s t : Store}

/-- Plain data is built up from its parts. -/
theorem Datum.induct {P : Datum → Prop} (null : P .null) (bool : ∀ b, P (.bool b)) (int : ∀ i, P (.int i))
    (text : ∀ s, P (.text s)) (list : ∀ ds, (∀ d ∈ ds, P d) → P (.list ds))
    (record : ∀ fs, (∀ x ∈ fs, P x.2) → P (.record fs)) : ∀ d, P d := by
  intro d
  refine @Datum.rec P (fun ds => ∀ d ∈ ds, P d) (fun fs => ∀ x ∈ fs, P x.2) (fun x => P x.2)
    null bool int text list record ?_ ?_ ?_ ?_ ?_ d
  · simp
  · intro d ds hd hds x hx
    rcases List.mem_cons.mp hx with rfl | hx
    · exact hd
    · exact hds x hx
  · simp
  · intro x fs hx hfs y hy
    rcases List.mem_cons.mp hy with rfl | hy
    · exact hx
    · exact hfs y hy
  · intro _ _ h
    exact h

section Pairs
variable {α β : Type} [BEq α] {key : α} {v : β} {xs ys : List (α × β)}

theorem lookupLast_append :
    lookupLast key (xs ++ ys) = (lookupLast key ys).or (lookupLast key xs) := by
  induction xs with
  | nil => simp [lookupLast]
  | cons x xs ih =>
    obtain ⟨k,w⟩ := x
    simp only [List.cons_append,lookupLast,ih]
    cases lookupLast key ys with
    | some u => rfl
    | none => rfl

variable [LawfulBEq α]

theorem lookupLast_mem (h : lookupLast key xs = some v) : (key,v) ∈ xs := by
  induction xs with
  | nil => simp [lookupLast] at h
  | cons x xs ih =>
    obtain ⟨k,w⟩ := x
    simp only [lookupLast] at h
    cases hr : lookupLast key xs with
    | some u =>
      rw [hr] at h
      cases h
      exact List.mem_cons_of_mem _ (ih hr)
    | none =>
      rw [hr] at h
      by_cases hk : k = key
      · simp only [hk,beq_self_eq_true,if_true,Option.some.injEq] at h
        subst h
        subst hk
        exact List.mem_cons_self
      · simp [hk] at h

theorem lookupLast_eq_none : lookupLast key xs = none ↔ key ∉ xs.map Prod.fst := by
  induction xs with
  | nil => simp [lookupLast]
  | cons x xs ih =>
    obtain ⟨k,w⟩ := x
    simp only [lookupLast,List.map_cons,List.mem_cons,not_or]
    cases hr : lookupLast key xs with
    | some u =>
      have hmem : key ∈ xs.map Prod.fst := by
        rw [hr] at ih
        simpa using ih
      simp [hmem]
    | none =>
      have hmem := ih.mp hr
      by_cases hk : k = key
      · simp [hk]
      · simp [hk,hmem,Ne.symm hk]

end Pairs

/-- The branch that building takes for a part of a record. -/
def branchFor (d : Datum) : Branch := ⟨d,build d,buildItems d⟩

/-- What is found in fields that are taken one by one. -/
theorem lookupLast_each {β : Type} {each : List (String × Datum) → List (String × β)} {g : Datum → β} (hnil : each [] = [])
    (hcons : ∀ k d fields, each ((k,d) :: fields) = (k,g d) :: each fields) (word : String) (fields : List (String × Datum)) :
    lookupLast word (each fields) = (lookupLast word fields).map g := by
  induction fields with
  | nil =>
    rw [hnil]
    rfl
  | cons x fields ih =>
    obtain ⟨k,d⟩ := x
    simp only [hcons,lookupLast,ih]
    cases lookupLast word fields with
    | some e => rfl
    | none =>
      simp only [Option.map_none]
      split <;> rfl

theorem lookupLast_branches (word : String) (fields : List (String × Datum)) :
    lookupLast word (branches fields) = (lookupLast word fields).map branchFor :=
  lookupLast_each rfl (fun _ _ _ => rfl) word fields

/-- A node that is being built. -/
def Building (n : NodeId) (s : Store) : Prop := ∃ c, s.nodes[n.index]? = some c ∧ c.building = true

theorem Building.of_grows (h : Building n s) (hg : s.Grows t) : Building n t := by
  obtain ⟨c,hc,hb⟩ := h
  exact ⟨c,(hg.nodes _ (Store.lt_nodes_of_get hc)).trans hc,hb⟩

theorem Building.mapNode (h : Building n s) (hf : ∀ c, (f c).building = c.building) : Building n (s.mapNode n f) := by
  obtain ⟨c,hc,hb⟩ := h
  exact ⟨f c,Store.mapNode_self hc,by rw [hf,hb]⟩

/-- An edit that only adds cells. -/
abbrev Adds (e : Edit α) : Prop := e.Meets (fun _ => True) Store.Grows (fun _ _ => True)

/-- An edit that adds cells and otherwise changes a node that is being built, and leaves it so. -/
abbrev Fills (n : NodeId) (e : Edit α) : Prop :=
  e.Meets (Building n) (Store.GrowsOff n) (fun _ => Building n)

namespace Adds

theorem bind {x : Edit α} {f : α → Edit β} (hx : Adds x) (hf : ∀ a, Adds (f a)) : Adds (x >>= f) :=
  Edit.Meets.bind (fun _ _ _ => Store.Grows.trans) hx hf

theorem pure (a : α) : Adds (Pure.pure a : Edit α) := Edit.Meets.pure Store.Grows.refl (fun _ _ => trivial)

theorem throw (e : Fault) : Adds (MonadExcept.throw e : Edit α) := Edit.Meets.throw Store.Grows.refl

theorem read (r : Read α) : Adds (liftM r : Edit α) := Edit.Meets.read Store.Grows.refl (fun _ _ _ _ => trivial)

theorem lift (r : Except Fault α) : Adds (Edit.lift r) := Edit.Meets.lift Store.Grows.refl (fun _ _ _ _ => trivial)

theorem parse (text : String) : Adds (Edit.parse text) := Edit.Meets.parse Store.Grows.refl (fun _ _ _ => trivial)

theorem newNode (c : NodeCell) : Adds (Edit.newNode c) := fun _ s _ => ⟨Store.grows_addNode s c,trivial⟩

theorem newList (c : ListCell) : Adds (Edit.newList c) := fun _ s _ => ⟨Store.grows_addList s c,trivial⟩

theorem newView (c : ViewCell) : Adds (Edit.newView c) := fun _ s _ => ⟨Store.grows_addView s c,trivial⟩

theorem grows {e : Edit α} (h : Adds e) {a : α} (he : e p s = .ok a t) : s.Grows t := (Edit.Meets.frame_ok h trivial he).1

theorem grows_error {e : Edit α} (h : Adds e) {fault : Fault} (he : e p s = .error fault t) :
    s.Grows t := Edit.Meets.frame_error h trivial he

end Adds

namespace Fills
variable {n : NodeId}

theorem bind {x : Edit α} {f : α → Edit β} (hx : Fills n x) (hf : ∀ a, Fills n (f a)) : Fills n (x >>= f) :=
  Edit.Meets.bind (fun _ _ _ => Store.GrowsOff.trans) hx hf

theorem pure (a : α) : Fills n (Pure.pure a : Edit α) := Edit.Meets.pure (Store.GrowsOff.refl n) (fun _ h => h)

theorem throw (e : Fault) : Fills n (MonadExcept.throw e : Edit α) := Edit.Meets.throw (Store.GrowsOff.refl n)

theorem read (r : Read α) : Fills n (liftM r : Edit α) :=
  Edit.Meets.read (Store.GrowsOff.refl n) (fun _ _ h _ => h)

theorem lift (r : Except Fault α) : Fills n (Edit.lift r) :=
  Edit.Meets.lift (Store.GrowsOff.refl n) (fun _ _ h _ => h)

theorem of_adds {e : Edit α} (h : Adds e) : Fills n e := by
  intro p s hs
  have hm := h p s trivial
  split
  · next a t he =>
    rw [he] at hm
    exact ⟨hm.1.off n,hs.of_grows hm.1⟩
  · next e t he =>
    rw [he] at hm
    exact Store.Grows.off hm n

theorem node {f : NodeCell → Edit α} (hf : ∀ c, c.building = true → Fills n (f c)) :
    Fills n (do f (← Read.node n)) := by
  intro p s hs
  obtain ⟨c,hc,hb⟩ := hs
  have hr : (liftM (Read.node n) : Edit NodeCell) p s = .ok c s := Edit.read_ok.mpr ⟨Read.node_ok.mpr hc,rfl⟩
  rw [Edit.run_bind,hr]
  exact hf c hb p s ⟨c,hc,hb⟩

theorem updateNode (hf : ∀ c, (f c).building = c.building) : Fills n (Edit.updateNode n f) :=
  fun _ s hs => ⟨Store.growsOff_mapNode s n f,hs.mapNode hf⟩

theorem putAttr (a : Attr) (v : Value) : Fills n (putAttr n a v) := updateNode (fun _ => rfl)

end Fills

theorem setSpacing_fills (n : NodeId) (f : Field) (place : Option Attr) (present : Bool) :
    Fills n (setSpacing n f place present) := by
  unfold setSpacing newSpace newPlainList newLooseList newNodeList
  refine Fills.bind (Fills.read _) (fun c => ?_)
  dsimp only
  split
  · refine Fills.bind (Fills.of_adds (Adds.newNode _)) (fun m => Fills.bind (Fills.pure _) (fun vs => ?_))
    split
    · exact Fills.bind (Fills.of_adds (Adds.newList _)) (fun l => Fills.putAttr _ _)
    · exact Fills.bind (Fills.of_adds (Adds.newList _)) (fun l => Fills.putAttr _ _)
  · refine Fills.bind (Fills.pure _) (fun vs => ?_)
    split
    · exact Fills.bind (Fills.of_adds (Adds.newList _)) (fun l => Fills.putAttr _ _)
    · exact Fills.bind (Fills.of_adds (Adds.newList _)) (fun l => Fills.putAttr _ _)

theorem confirm_adds (text type : String) : Adds (confirm text type) := by
  unfold confirm
  refine Adds.bind (Adds.parse _) (fun d => Adds.bind (Adds.lift _) (fun e => ?_))
  split
  · exact Adds.pure _
  · exact Adds.throw _

theorem spacings_fills (n : NodeId) (f g : Field) (place place' : Option Attr) (present : Bool) (v : Value) :
    Fills n (do
      setSpacing n f place present
      setSpacing n g place' true
      return v) :=
  Fills.bind (setSpacing_fills _ _ _ _) (fun _ => Fills.bind (setSpacing_fills _ _ _ _) (fun _ => Fills.pure _))

theorem prepareStore_fills (n : NodeId) (k : Kind) (a : Attr) (v : Value) : Fills n (prepareStore n k a v) := by
  have hc : ∀ (text type : String) (v : Value), Fills n (do confirm text type; return v) :=
    fun text type v => Fills.bind (Fills.of_adds (confirm_adds _ _)) (fun _ => Fills.pure _)
  have ht : ∀ why, Fills n (do
      checkName why v
      if ← truth v then
        setSpacing n .firstFormatting (some (.field .delimiter)) true
        setSpacing n .secondFormatting (some (.field .delimiter)) true
      return v) := by
    intro why
    refine Fills.bind (Fills.read _) (fun _ => Fills.bind (Fills.read _) (fun b => ?_))
    cases b with
    | true => exact spacings_fills _ _ _ _ _ _ _
    | false => exact Fills.pure _
  unfold prepareStore
  split
  case h_1 => exact Fills.read _
  case h_6 => exact ht _
  case h_7 => exact ht _
  case h_8 => exact Fills.bind (Fills.read _) (fun _ => Fills.pure _)
  case h_9 =>
    refine Fills.bind (Fills.read _) (fun b => ?_)
    cases b with
    | true => exact spacings_fills _ _ _ _ _ _ _
    | false =>
      refine Fills.bind (Fills.read _) (fun b => ?_)
      cases b with
      | true => exact spacings_fills _ _ _ _ _ _ _
      | false =>
        refine Fills.bind (Fills.read _) (fun b => ?_)
        cases b with
        | true => exact Fills.bind (Fills.throw _) (fun _ => Fills.pure _)
        | false => exact Fills.pure _
  case h_10 => exact Fills.pure _
  all_goals
    split
    · exact hc _ _ _
    · exact Fills.pure _

theorem newViewOf_adds (form : ViewForm) (target : Value) (place : Option Attr) :
    Adds (newViewOf form target place) := by
  unfold newViewOf
  refine Adds.bind (Adds.read _) (fun shown => ?_)
  dsimp only
  split
  · refine Adds.bind (Adds.read _) (fun b => Adds.bind (Adds.pure _) (fun style => ?_))
    split
    · exact Adds.bind (Adds.read _) (fun _ => Adds.bind (Adds.read _) (fun _ => Adds.newView _))
    · exact Adds.bind (Adds.pure _) (fun _ => Adds.newView _)
  · refine Adds.bind (Adds.pure _) (fun style => ?_)
    split
    · exact Adds.bind (Adds.read _) (fun _ => Adds.bind (Adds.read _) (fun _ => Adds.newView _))
    · exact Adds.bind (Adds.pure _) (fun _ => Adds.newView _)

theorem wrapHeld_fills (n : NodeId) (a : Attr) : Fills n (wrapHeld n a) := by
  unfold wrapHeld
  refine Fills.node (fun c hb => ?_)
  have hw : ∀ (form : ViewForm) (held : Value) (f : Field), Fills n (do
      let w ← newViewOf form held (some a)
      if !c.building && c.lists.contains f then
        setHolders (.node n) (some a) (← Read.view w).items
      putAttr n a (.view w)) := by
    intro form held f
    refine Fills.bind (Fills.of_adds (newViewOf_adds _ _ _)) (fun w => ?_)
    simp only [hb,Bool.not_true,Bool.false_and]
    exact Fills.putAttr _ _
  cases a with
  | other word => exact Fills.pure _
  | field f =>
    dsimp only
    split
    · exact Fills.pure _
    · refine Fills.bind (Fills.read _) (fun held => ?_)
      split
      · refine Fills.bind (Fills.read _) (fun view => Fills.bind (Fills.pure _) (fun b => ?_))
        cases b with
        | true => exact Fills.pure _
        | false => exact hw _ _ _
      · refine Fills.bind (Fills.pure _) (fun b => ?_)
        cases b with
        | true => exact Fills.pure _
        | false => exact hw _ _ _

theorem storeBuilt_fills (n : NodeId) (f : Field) (v : Value) : Fills n (storeBuilt n f v) :=
  Fills.bind (Fills.read _) (fun _ => Fills.bind (prepareStore_fills _ _ _ _) (fun _ =>
    Fills.bind (Fills.putAttr _ _) (fun _ => wrapHeld_fills _ _)))

/-- Every branch, taken anywhere, only adds cells. -/
def BranchesAdd (branches : List (String × Branch)) : Prop :=
  ∀ x ∈ branches, (∀ parent place, Adds (x.2.one parent place)) ∧ (∀ parent place, Adds (x.2.many parent place))

section Filling
variable {branches : List (String × Branch)} (hb : BranchesAdd branches) (n : NodeId)
include hb

theorem fillSlot_fills (slot : Slot) : Fills n (fillSlot n branches slot) := by
  cases slot with
  | constant text shown => exact Fills.pure _
  | field form f shown =>
    cases hl : lookupLast f.word branches with
    | none =>
      simp only [fillSlot,hl]
      exact Fills.throw _
    | some branch =>
      simp only [fillSlot,hl]
      have hadd := hb _ (lookupLast_mem hl)
      have htext : Fills n (do
          storeBuilt n f (.ofDatum branch.datum)
          Edit.updateNode n (fun c => { c with texts := addField f c.texts })) :=
        Fills.bind (storeBuilt_fills _ _ _) (fun _ => Fills.updateNode (fun _ => rfl))
      have hlist : Fills n (do
          let inside ← branch.many (.node n) (some (.field f))
          let l ← newNodeList inside (.node n) (some (.field f))
          storeBuilt n f (.list l)
          Edit.updateNode n (fun c => { c with lists := addField f c.lists })) :=
        Fills.bind (Fills.of_adds (hadd.2 _ _)) (fun _ => Fills.bind (Fills.of_adds (Adds.newList _)) (fun _ =>
          Fills.bind (storeBuilt_fills _ _ _) (fun _ => Fills.updateNode (fun _ => rfl))))
      cases form with
      | text => exact htext
      | flag => exact htext
      | children => exact hlist
      | formatting => exact hlist
      | child =>
        dsimp only
        split
        · exact Fills.bind (Fills.of_adds (hadd.1 _ _)) (fun _ => Fills.bind (storeBuilt_fills _ _ _)
            (fun _ => Fills.updateNode (fun _ => rfl)))
        · exact Fills.bind (storeBuilt_fills _ _ _) (fun _ => Fills.updateNode (fun _ => rfl))

theorem fillSlots_fills (slots : List Slot) : Fills n (fillSlots n branches slots) := by
  induction slots with
  | nil => exact Fills.pure _
  | cons slot slots ih => exact Fills.bind (fillSlot_fills hb n slot) (fun _ => ih)

/-- Filling a node adds cells and changes the node alone. -/
theorem fill_growsOff (parent : Value) (place : Option Attr) :
    (fill n parent place branches).Meets (fun s => n.index < s.nodes.size) (Store.GrowsOff n)
      (fun _ _ => True) := by
  have ht := fun s t u => @Store.GrowsOff.trans n s t u
  have hr := Store.GrowsOff.refl n
  have hstart : ∀ f, (∀ c, (f c).building = true) →
      (Edit.updateNode n f).Meets (fun s => n.index < s.nodes.size) (Store.GrowsOff n) (fun _ => Building n) := by
    intro f hf p s hs
    refine ⟨Store.growsOff_mapNode s n _,f s.nodes[n.index],?_,hf _⟩
    change (s.mapNode n f).nodes[n.index]? = _
    rw [Store.mapNode_get,if_pos rfl,Array.getElem?_eq_getElem hs]
    rfl
  have hany : ∀ f, (Edit.updateNode n f).Meets (fun _ => True) (Store.GrowsOff n) (fun _ _ => True) :=
    fun f p s _ => ⟨Store.growsOff_mapNode s n f,trivial⟩
  have hread : ∀ {α : Type} (r : Read α),
      (liftM r : Edit α).Meets (fun _ => True) (Store.GrowsOff n) (fun _ _ => True) :=
    fun r => Edit.Meets.read hr (fun _ _ _ _ => trivial)
  unfold fill
  refine Edit.Meets.bind ht (hstart _ (fun _ => rfl)) (fun _ => ?_)
  split
  · exact Edit.Meets.throw hr
  · refine Edit.Meets.bind ht (Fills.putAttr _ _) (fun _ => Edit.Meets.bind ht (Fills.read _) (fun c => ?_))
    refine Edit.Meets.bind ht (Fills.lift _) (fun layout => Edit.Meets.bind ht (fillSlots_fills hb n _) (fun _ => ?_))
    -- From here on the node is no longer one that is being built.
    refine Edit.Meets.bind ht ((hany _).weaken (fun _ _ => trivial) (fun _ _ h => h)) (fun _ => ?_)
    refine Edit.Meets.bind ht (hread _) (fun c => ?_)
    split
    · refine Edit.Meets.bind ht (hread _) (fun v => Edit.Meets.bind ht ?_ (fun i => hany _))
      exact Edit.Meets.lift hr (fun _ _ h _ => h)
    · exact Edit.Meets.pure hr (fun _ h => h)

theorem buildRecord_adds (parent : Value) (place : Option Attr) : Adds (buildRecord branches parent place) := by
  unfold buildRecord
  split
  · exact Adds.throw _
  · split
    · exact Adds.throw _
    · next kind _ =>
      intro p s _
      have hf := fill_growsOff hb ⟨s.nodes.size⟩ parent place p
        (s.addNode ⟨kind,parent,place,true,[],[],[],[],none⟩) (by simp)
      rw [Edit.run_bind,Edit.newNode_run]
      dsimp only
      rw [Edit.run_bind]
      cases hr : fill ⟨s.nodes.size⟩ parent place branches p (s.addNode ⟨kind,parent,place,true,[],[],[],[],none⟩) with
      | ok a t =>
        rw [hr] at hf
        exact ⟨(Store.grows_addNode s _).trans_off hf.1 (Nat.le_refl _),trivial⟩
      | error e t =>
        rw [hr] at hf
        exact (Store.grows_addNode s _).trans_off hf (Nat.le_refl _)
  · exact Adds.throw _

end Filling

theorem branches_mem {fields : List (String × Datum)} {x : String × Branch} (h : x ∈ branches fields) :
    ∃ d, (x.1,d) ∈ fields ∧ x.2 = branchFor d := by
  induction fields with
  | nil => simp [branches] at h
  | cons y fields ih =>
    obtain ⟨k,d⟩ := y
    simp only [branches,List.mem_cons] at h
    rcases h with rfl | h
    · exact ⟨d,List.mem_cons_self,rfl⟩
    · obtain ⟨e,he,hx⟩ := ih h
      exact ⟨e,List.mem_cons_of_mem _ he,hx⟩

theorem buildEach_adds {ds : List Datum} (h : ∀ d ∈ ds, ∀ parent place, Adds (build d parent place))
    (parent : Value) (place : Option Attr) : Adds (buildEach ds parent place) := by
  induction ds with
  | nil => exact Adds.pure _
  | cons d ds ih =>
    simp only [buildEach]
    exact Adds.bind (h d List.mem_cons_self _ _) (fun _ =>
      Adds.bind (ih (List.forall_mem_cons.mp h).2) (fun _ => Adds.pure _))

theorem build_adds_both (d : Datum) : (∀ parent place, Adds (build d parent place)) ∧
    (∀ parent place, Adds (buildItems d parent place)) := by
  induction d using Datum.induct with
  | null => exact ⟨fun _ _ => Adds.throw _,fun _ _ => Adds.throw _⟩
  | bool b => exact ⟨fun _ _ => Adds.throw _,fun _ _ => Adds.throw _⟩
  | int i => exact ⟨fun _ _ => Adds.throw _,fun _ _ => Adds.throw _⟩
  | text s =>
    refine ⟨fun _ _ => Adds.throw _,fun _ _ => ?_⟩
    simp only [buildItems]
    split
    · exact Adds.pure _
    · exact Adds.throw _
  | list ds ih =>
    exact ⟨fun _ _ => Adds.throw _,fun parent place => buildEach_adds (fun d hd => (ih d hd).1) parent place⟩
  | record fs ih =>
    constructor
    · intro parent place
      simp only [build]
      refine buildRecord_adds (fun x hx => ?_) parent place
      obtain ⟨d,hd,hx⟩ := branches_mem hx
      rw [hx]
      exact ih _ hd
    · intro parent place
      simp only [buildItems]
      split
      · exact Adds.pure _
      · exact Adds.throw _

theorem build_adds (d : Datum) (parent : Value) (place : Option Attr) : Adds (build d parent place) :=
  (build_adds_both d).1 parent place

theorem buildItems_adds (d : Datum) (parent : Value) (place : Option Attr) : Adds (buildItems d parent place) :=
  (build_adds_both d).2 parent place

end CodeTree
