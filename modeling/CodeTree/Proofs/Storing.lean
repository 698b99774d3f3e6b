import CodeTree.Proofs.Growth

/-! # Storing a field of a node that is being built

Storing checks the value or puts it in order, may set the spacing of other fields, and puts a view
around a list. This module says what each of these leaves in the store.
-/
namespace CodeTree
variable {present : Bool} {d : Datum} {f : Field} {k : Kind} {a b a' b' : Mark} {c c' : NodeCell} {n : NodeId}
  {place : Option Attr} {p : Parser} {s t : Store} {x : String} {u : Unit} {v v' : Value} {form : ViewForm}

section Spacing

/-- The cell of a node of one space. -/
def spaceCell (parent : Value) (place : Option Attr) : NodeCell where
  kind := .space
  parent := parent
  place := place
  building := false
  texts := [.type,.value]
  lists := []
  children := []
  attrs := [(.field .type,.text "space"),(.field .value,.text " ")]

/-- The spacing that storing a value sets, while a node is being built, under fields of the node. -/
def respacing (k : Kind) (f : Field) (d : Datum) : List (Field × Bool) :=
  match k, f, d with
  | .dottedAsName, .target, .text s | .nameAsName, .target, .text s =>
    if s = "" then [] else [(.firstFormatting,true),(.secondFormatting,true)]
  | .exceptBranch, .delimiter, .text s =>
    if s = "," then [(.secondFormatting,false),(.thirdFormatting,true)]
    else if s = "as" then [(.secondFormatting,true),(.thirdFormatting,true)] else []
  | _, _, _ => []

/-- A value is a plain list of one space, or of nothing, with cells from one mark to another. The space
hangs at a node, at the place of its delimiter. -/
def Spaces (t : Store) (n : NodeId) (a b : Mark) (present : Bool) (v : Value) : Prop :=
  ∃ l items, v = .list l ∧ a.lists ≤ l.index ∧ l.index < b.lists ∧
    t.lists[l.index]? = some ⟨.plain,items,.none,none,[]⟩ ∧
    match present with
    | true => ∃ m, items = [.node m] ∧ a.nodes ≤ m.index ∧ m.index < b.nodes ∧
        t.nodes[m.index]? = some (spaceCell (.node n) (some (.field .delimiter)))
    | false => items = []

theorem Spaces.widen (h : Spaces s n a b present v) (hst : Store.Agree a b s t) (ha : a' ≤ a) (hb : b ≤ b') :
    Spaces t n a' b' present v := by
  obtain ⟨l,items,hv,hla,hlb,hl,hitems⟩ := h
  refine ⟨l,items,hv,Nat.le_trans ha.2.1 hla,Nat.lt_of_lt_of_le hlb hb.2.1,(hst.lists _ hla hlb).trans hl,?_⟩
  cases present with
  | false => exact hitems
  | true =>
    obtain ⟨m,hi,hma,hmb,hm⟩ := hitems
    exact ⟨m,hi,Nat.le_trans ha.1 hma,Nat.lt_of_lt_of_le hmb hb.1,(hst.nodes _ hma hmb).trans hm⟩

/-- No item of one list is an item of the other. -/
def Apart (t : Store) (v w : Value) : Prop :=
  ∀ l l' c c', v = .list l → w = .list l' → t.lists[l.index]? = some c → t.lists[l'.index]? = some c' →
    ∀ x ∈ c.items, x ∉ c'.items

theorem Spaces.apart {e : Mark} {present' : Bool} {w : Value} (h : Spaces t n a e present v) (h' : Spaces t n e b present' w) :
    Apart t v w ∧ Apart t w v := by
  obtain ⟨l,items,rfl,-,-,hl,hitems⟩ := h
  obtain ⟨l',items',rfl,-,-,hl',hitems'⟩ := h'
  have hdisjoint : ∀ x ∈ items, x ∉ items' := by
    intro x hx hx'
    cases present with
    | false =>
      rw [hitems] at hx
      cases hx
    | true =>
      cases present' with
      | false =>
        rw [hitems'] at hx'
        cases hx'
      | true =>
        obtain ⟨m,rfl,-,hm,-⟩ := hitems
        obtain ⟨m',rfl,hm',-,-⟩ := hitems'
        rw [List.mem_singleton] at hx hx'
        rw [hx] at hx'
        cases hx'
        omega
  constructor
  · intro _ _ c c' hv hw hc hc' x hx hx'
    cases hv
    cases hw
    rw [hl] at hc
    rw [hl'] at hc'
    cases hc
    cases hc'
    exact hdisjoint x hx hx'
  · intro _ _ c c' hv hw hc hc' x hx hx'
    cases hv
    cases hw
    rw [hl'] at hc
    rw [hl] at hc'
    cases hc
    cases hc'
    exact hdisjoint x hx' hx

/-- Those of some fields that are still free hold the spacing that was set under them, and no two of them the
same space. -/
structure Spaced (t : Store) (n : NodeId) (c : NodeCell) (spacing : List (Field × Bool)) (free : Field → Prop)
    (a b : Mark) : Prop where
  each : ∀ x ∈ spacing, free x.1 → ∃ w, c.stored? (.field x.1) = some w ∧ Spaces t n a b x.2 w
  apart : ∀ x ∈ spacing, ∀ y ∈ spacing, free x.1 → free y.1 → x.1 ≠ y.1 →
    ∀ v w, c.stored? (.field x.1) = some v → c.stored? (.field y.1) = some w → Apart t v w

/-- Spacing stays where its cells do, for the fields that keep their values. -/
theorem Spaced.move {spacing : List (Field × Bool)} {free free' : Field → Prop} (h : Spaced s n c spacing free a b)
    (hst : Store.Agree a b s t) (ha : a' ≤ a) (hb : b ≤ b')
    (hfree : ∀ x ∈ spacing, free' x.1 → free x.1 ∧ c'.stored? (.field x.1) = c.stored? (.field x.1)) :
    Spaced t n c' spacing free' a' b' := by
  refine ⟨fun x hx hf => ?_,fun x hx y hy hfx hfy hne v w hv hw => ?_⟩
  · obtain ⟨hf,hstored⟩ := hfree x hx hf
    obtain ⟨w,hw,hs⟩ := h.each x hx hf
    exact ⟨w,hstored.trans hw,hs.widen hst ha hb⟩
  · obtain ⟨hfx,hsx⟩ := hfree x hx hfx
    obtain ⟨hfy,hsy⟩ := hfree y hy hfy
    rw [hsx] at hv
    rw [hsy] at hw
    obtain ⟨v',hv',l,_,rfl,hla,hlb,-⟩ := h.each x hx hfx
    obtain ⟨w',hw',l',_,rfl,hla',hlb',-⟩ := h.each y hy hfy
    cases hv.symm.trans hv'
    cases hw.symm.trans hw'
    intro k k' d d' hk hk' hd hd'
    cases hk
    cases hk'
    rw [hst.lists _ hla hlb] at hd
    rw [hst.lists _ hla' hlb'] at hd'
    exact h.apart x hx y hy hfx hfy hne _ _ hv hw _ _ d d' rfl rfl hd hd'

/-- What changes in the cell of a node while one field is stored: some fields get new values. -/
structure Rewrites (c c' : NodeCell) (fields : List Field) : Prop where
  kind : c'.kind = c.kind
  parent : c'.parent = c.parent
  place : c'.place = c.place
  building : c'.building = c.building
  texts : c'.texts = c.texts
  lists : c'.lists = c.lists
  children : c'.children = c.children
  origin : c'.origin = c.origin
  stored : ∀ f, f ∉ fields → c'.stored? (.field f) = c.stored? (.field f)
  others : ∀ word, c'.stored? (.other word) = c.stored? (.other word)

theorem Rewrites.refl (c : NodeCell) : Rewrites c c [] :=
  ⟨rfl,rfl,rfl,rfl,rfl,rfl,rfl,rfl,fun _ _ => rfl,fun _ => rfl⟩

theorem Rewrites.put (c : NodeCell) (f : Field) (v : Value) : Rewrites c (c.put (.field f) v) [f] := by
  refine ⟨rfl,rfl,rfl,rfl,rfl,rfl,rfl,rfl,fun g hg => NodeCell.stored_put_of_ne ?_,
    fun word => NodeCell.stored_put_of_ne (fun h => by cases h)⟩
  intro h
  cases h
  exact hg List.mem_cons_self

theorem Rewrites.trans {c'' : NodeCell} {fs gs : List Field} (h : Rewrites c c' fs) (h' : Rewrites c' c'' gs) :
    Rewrites c c'' (fs ++ gs) where
  kind := h'.kind.trans h.kind
  parent := h'.parent.trans h.parent
  place := h'.place.trans h.place
  building := h'.building.trans h.building
  texts := h'.texts.trans h.texts
  lists := h'.lists.trans h.lists
  children := h'.children.trans h.children
  origin := h'.origin.trans h.origin
  stored f hf := by
    rw [List.mem_append,not_or] at hf
    exact (h'.stored f hf.2).trans (h.stored f hf.1)
  others word := (h'.others word).trans (h.others word)

theorem setSpacing_run (hc : s.nodes[n.index]? = some c) (hb : c.building = true) (p : Parser) (f : Field)
    (hplace : present = true → place = some (.field .delimiter)) :
    ∃ t v, setSpacing n f place present p s = .ok () t ∧ s.GrowsOff n t ∧
      t.nodes[n.index]? = some (c.put (.field f) v) ∧ Spaces t n s.mark t.mark present v := by
  have hn := Store.lt_nodes_of_get hc
  have hread : (liftM (Read.node n) : Edit NodeCell) p s = .ok c s := Edit.read_ok.mpr ⟨Read.node_ok.mpr hc,rfl⟩
  cases present with
  | true =>
    cases hplace rfl
    let s₁ := s.addNode (spaceCell (.node n) (some (.field .delimiter)))
    let s₂ := s₁.addList ⟨.plain,[.node ⟨s.nodes.size⟩],.none,none,[]⟩
    let t := s₂.mapNode n (·.put (.field f) (.list ⟨s.lists.size⟩))
    have ht : t.nodes[n.index]? = some (c.put (.field f) (.list ⟨s.lists.size⟩)) := by
      simp only [t,s₂,s₁,Store.mapNode_get,Store.addList_nodes,Store.addNode_get,if_pos,hc]
      rw [if_neg (by omega)]
      rfl
    refine ⟨t,.list ⟨s.lists.size⟩,?_,?_,ht,⟨s.lists.size⟩,[.node ⟨s.nodes.size⟩],rfl,Nat.le_refl _,?_,?_,?_⟩
    · unfold setSpacing
      rw [Edit.run_bind,hread]
      simp only [hb]
      rfl
    · exact (((Store.grows_addNode _ _).trans (Store.grows_addList _ _)).off n).trans (Store.growsOff_mapNode _ _ _)
    · simp [t,s₂,s₁]
    · simp only [t,s₂,s₁,Store.mapNode_lists,Store.addList_get,Store.addNode_lists,if_pos]
    · refine ⟨⟨s.nodes.size⟩,rfl,Nat.le_refl _,by simp [t,s₂,s₁],?_⟩
      simp only [t,s₂,s₁,Store.mapNode_get,Store.addList_nodes,Store.addNode_get,if_pos]
      rw [if_neg (by omega)]
  | false =>
    let s₂ := s.addList ⟨.plain,[],.none,none,[]⟩
    let t := s₂.mapNode n (·.put (.field f) (.list ⟨s.lists.size⟩))
    have ht : t.nodes[n.index]? = some (c.put (.field f) (.list ⟨s.lists.size⟩)) := by
      simp only [t,s₂,Store.mapNode_get,Store.addList_nodes,if_pos,hc]
      rfl
    refine ⟨t,.list ⟨s.lists.size⟩,?_,?_,ht,⟨s.lists.size⟩,[],rfl,Nat.le_refl _,?_,?_,rfl⟩
    · unfold setSpacing
      rw [Edit.run_bind,hread]
      simp only [hb]
      rfl
    · exact ((Store.grows_addList _ _).off n).trans (Store.growsOff_mapNode _ _ _)
    · simp [t,s₂]
    · simp only [t,s₂,Store.mapNode_lists,Store.addList_get,if_pos]

/-- Two fields get their spacing, one after the other. -/
theorem spacings_ok (hc : s.nodes[n.index]? = some c) (hb : c.building = true) {g : Field} (hfg : f ≠ g)
    (hplace : present = true → place = some (.field .delimiter)) (h : (do
      setSpacing n f place present
      setSpacing n g (some (.field .delimiter)) true
      return v : Edit Value) p s = .ok v' t) :
    v' = v ∧ s.GrowsOff n t ∧ ∃ c', t.nodes[n.index]? = some c' ∧ Rewrites c c' [f,g] ∧
      Spaced t n c' [(f,present),(g,true)] (fun _ => True) s.mark t.mark := by
  obtain ⟨s₁,w₁,hr₁,hg₁,hc₁,hs₁⟩ := setSpacing_run hc hb p f hplace
  obtain ⟨s₂,w₂,hr₂,hg₂,hc₂,hs₂⟩ := setSpacing_run hc₁ hb p g (fun _ => rfl)
  have hn := Store.lt_nodes_of_get hc
  rw [Edit.run_bind,hr₁] at h
  dsimp only at h
  rw [Edit.run_bind,hr₂] at h
  obtain ⟨rfl,rfl⟩ := Edit.pure_ok.mp h
  have hs₁ := hs₁.widen (hg₂.agree hn (Mark.le_refl _)) (Mark.le_refl _) (Mark.le_refl _)
  have hf : ((c.put (.field f) w₁).put (.field g) w₂).stored? (.field f) = some w₁ := by
    rw [NodeCell.stored_put_of_ne (by intro h; cases h; exact hfg rfl),NodeCell.stored_put_self]
  have hg : ((c.put (.field f) w₁).put (.field g) w₂).stored? (.field g) = some w₂ := NodeCell.stored_put_self _ _ _
  refine ⟨rfl,hg₁.trans hg₂,_,hc₂,(Rewrites.put c f w₁).trans (Rewrites.put _ g w₂),⟨?_,?_⟩⟩
  · intro x hx _
    simp only [List.mem_cons,List.not_mem_nil,or_false] at hx
    rcases hx with rfl | rfl
    · exact ⟨w₁,hf,hs₁.widen (.refl _ _ _) (Mark.le_refl _) hg₂.mark⟩
    · exact ⟨w₂,hg,hs₂.widen (.refl _ _ _) hg₁.mark (Mark.le_refl _)⟩
  · intro x hx y hy _ _ hne v w hv hw
    simp only [List.mem_cons,List.not_mem_nil,or_false] at hx hy
    rcases hx with rfl | rfl <;> rcases hy with rfl | rfl
    · exact absurd rfl hne
    · cases hf.symm.trans hv
      cases hg.symm.trans hw
      exact (hs₁.apart hs₂).1
    · cases hg.symm.trans hv
      cases hf.symm.trans hw
      exact (hs₁.apart hs₂).2
    · exact absurd rfl hne

/-- Storing a field can set the spacing of others. -/
def Kind.respaces (k : Kind) (f : Field) : Bool :=
  match k, f with
  | .dottedAsName, .target | .nameAsName, .target | .exceptBranch, .delimiter => true
  | _, _ => false

theorem respacing_eq_nil (h : k.respaces f = false) (d : Datum) : respacing k f d = [] := by
  unfold respacing
  split <;> first | rfl | simp [Kind.respaces] at h

/-- What a node keeps of a value stored under a field: operators of assignments lose their sign. -/
def Kind.keeps (k : Kind) (f : Field) (v : Value) : Value :=
  match k, f, v with
  | .assignment, .operator, .text s =>
    match s.toList with
    | [c] => if c == '=' then .text "" else v
    | [c, d] => if d == '=' then .text (String.singleton c) else v
    | _ => v
  | _, _, v => v

theorem Kind.keeps_eq (h : k = .assignment → f ≠ .operator) (v : Value) : k.keeps f v = v := by
  unfold Kind.keeps
  split
  · exact absurd rfl (h rfl)
  · rfl

theorem assignmentOperator_ok (h : assignmentOperator v s = .ok v') : v' = Kind.keeps .assignment .operator v := by
  cases v with
  | text x =>
    rcases hx : x.toList with _ | ⟨c,_ | ⟨d,_ | ⟨e,rest⟩⟩⟩
    case cons.cons.cons => simp [assignmentOperator,hx] at h
    all_goals
      simp only [assignmentOperator,hx,Read.pure_ok] at h
      simp only [Kind.keeps,hx]
      exact h.symm
  | _ =>
    simp only [assignmentOperator,Read.bind_ok] at h
    obtain ⟨i,-,hi⟩ := h
    split at hi
    · exact (Read.pure_ok.mp hi).symm
    · exact absurd hi Read.throw_ok

theorem checkName_ok {why : Refusal} (h : checkName why v s = .ok u) : ∃ x, v = .text x := by
  cases v with
  | text x => exact ⟨x,rfl⟩
  | _ => simp [checkName] at h

theorem equal_ofDatum (d : Datum) (x : String) (s : Store) :
    equal (.ofDatum d) (.text x) s = .ok (d.same (.text x)) := by
  change equalAt s.depth (.ofDatum d) (.text x) s = _
  unfold Store.depth
  cases d <;> (simp only [Value.ofDatum,equalAt]; rfl)

theorem Datum.same_text_eq_false (h : d ≠ .text x) : d.same (.text x) = false := by
  cases d with
  | text y =>
    simp only [ne_eq,Datum.text.injEq] at h
    simpa [Datum.same] using h
  | _ => simp [Datum.same]

theorem truth_ofDatum (d : Datum) (s : Store) : truth (.ofDatum d) s = .ok d.truth := by
  cases d <;> rfl

/-- What storing a field does first, told by its result. -/
structure Prepared (n : NodeId) (c : NodeCell) (spacing : List (Field × Bool)) (s t : Store) : Prop where
  grows : s.GrowsOff n t
  cell : ∃ c', t.nodes[n.index]? = some c' ∧ Rewrites c c' (spacing.map Prod.fst) ∧
    Spaced t n c' spacing (fun _ => True) s.mark t.mark

theorem Prepared.refl (hc : s.nodes[n.index]? = some c) : Prepared n c [] s s :=
  ⟨Store.GrowsOff.refl n s,c,hc,Rewrites.refl c,⟨by simp,by simp⟩⟩

section Prepare
variable {n : NodeId} {c : NodeCell} {s t : Store} {p : Parser} {f : Field} {v v' : Value}

theorem confirm_ok {text type : String} (h : confirm text type p s = .ok u t) : t = s := by
  unfold confirm at h
  simp only [Edit.bind_ok,Edit.parse_ok,Edit.lift_ok] at h
  obtain ⟨d,_,⟨-,rfl⟩,e,_,⟨-,rfl⟩,h⟩ := h
  split at h
  · exact (Edit.pure_ok.mp h).2.symm
  · exact absurd h Edit.throw_ok

variable (hc : s.nodes[n.index]? = some c)
include hc

theorem pure_prepared (w : Value) : (pure w : Edit Value).Yields p s (fun v' t => v' = w ∧ Prepared n c [] s t) := by
  intro v' t h
  obtain ⟨rfl,rfl⟩ := Edit.pure_ok.mp h
  exact ⟨rfl,Prepared.refl hc⟩

/-- A field whose storing sets no spacing. -/
theorem prepareStore_plain (hf : k.respaces f = false) :
    (prepareStore n k (.field f) v).Yields p s (fun v' t => v' = k.keeps f v ∧ Prepared n c [] s t) := by
  have hconfirm : ∀ (text type : String) (w : Value), (do confirm text type; return w : Edit Value).Yields p s
      (fun v' t => v' = w ∧ Prepared n c [] s t) := by
    intro text type w v' t h
    obtain ⟨u,s₁,h₁,h₂⟩ := Edit.bind_ok.mp h
    cases confirm_ok h₁
    exact pure_prepared hc w v' t h₂
  unfold prepareStore
  split
  case h_1 heq =>
    cases heq
    intro v' t h
    obtain ⟨hv,rfl⟩ := Edit.read_ok.mp h
    exact ⟨assignmentOperator_ok hv,Prepared.refl hc⟩
  case h_6 heq => cases heq; cases hf
  case h_7 heq => cases heq; cases hf
  case h_8 heq =>
    cases heq
    intro v' t h
    obtain ⟨u,-,h₂⟩ := Edit.ask_ok.mp h
    exact pure_prepared hc v v' t h₂
  case h_9 heq => cases heq; cases hf
  case h_10 k _ _ hoperator _ _ _ _ _ _ _ _ =>
    rw [Kind.keeps_eq (fun hk hf => hoperator hk (congrArg _ hf))]
    exact pure_prepared hc v
  all_goals
    next heq =>
    cases heq
    split
    · exact hconfirm _ _ _
    · exact pure_prepared hc v

/-- A field whose storing sets the spacing of fields filled before. -/
theorem prepareStore_respaces (hb : c.building = true) (hf : k.respaces f = true) (d : Datum) :
    (prepareStore n k (.field f) (.ofDatum d)).Yields p s
      (fun v' t => v' = .ofDatum d ∧ Prepared n c (respacing k f d) s t) := by
  have htwo : ∀ (f g : Field) (place : Option Attr) (present : Bool) (w : Value), f ≠ g →
      (present = true → place = some (.field .delimiter)) → (do
      setSpacing n f place present
      setSpacing n g (some (.field .delimiter)) true
      return w : Edit Value).Yields p s
      (fun v' t => v' = w ∧ Prepared n c [(f,present),(g,true)] s t) := by
    intro f g place present w hfg hplace v' t h
    obtain ⟨hv,hg,hcell⟩ := spacings_ok hc hb hfg hplace h
    exact ⟨hv,hg,hcell⟩
  have halias : ∀ why, (do
      checkName why (.ofDatum d)
      if ← truth (.ofDatum d) then
        setSpacing n .firstFormatting (some (.field .delimiter)) true
        setSpacing n .secondFormatting (some (.field .delimiter)) true
      return .ofDatum d : Edit Value).Yields p s (fun v' t => v' = .ofDatum d ∧
        Prepared n c (respacing .dottedAsName .target d) s t) := by
    intro why v' t h
    obtain ⟨u,hname,h₂⟩ := Edit.ask_ok.mp h
    obtain ⟨b,ht,h₄⟩ := Edit.ask_ok.mp h₂
    obtain ⟨x,hx⟩ := checkName_ok hname
    rw [truth_ofDatum] at ht
    cases d with
    | text y =>
      by_cases hy : y = ""
      · subst hy
        cases ht
        exact pure_prepared hc _ _ _ h₄
      · have hb : b = true := by
          cases ht
          simpa [Datum.truth] using hy
        subst hb
        have hr : respacing .dottedAsName .target (.text y) = [(.firstFormatting,true),(.secondFormatting,true)] := by
          simp only [respacing,if_neg hy]
        rw [hr]
        exact htwo _ _ _ _ _ (by decide) (fun _ => rfl) _ _ h₄
    | _ => cases hx
  unfold prepareStore
  split
  case h_6 heq =>
    cases heq
    exact halias _
  case h_7 heq =>
    cases heq
    have hr : respacing .nameAsName .target d = respacing .dottedAsName .target d := by cases d <;> rfl
    rw [hr]
    exact halias _
  case h_9 heq =>
    cases heq
    intro v' t h
    obtain ⟨b,hcomma,h₂⟩ := Edit.ask_ok.mp h
    rw [equal_ofDatum] at hcomma
    cases hcomma
    by_cases hy : d = .text ","
    · subst hy
      exact htwo _ _ _ _ _ (by decide) (fun h => by cases h) _ _ h₂
    · rw [Datum.same_text_eq_false hy] at h₂
      obtain ⟨b,has,h₂⟩ := Edit.ask_ok.mp h₂
      rw [equal_ofDatum] at has
      cases has
      by_cases hz : d = .text "as"
      · subst hz
        exact htwo _ _ _ _ _ (by decide) (fun _ => rfl) _ _ h₂
      · rw [Datum.same_text_eq_false hz] at h₂
        obtain ⟨b,-,h₂⟩ := Edit.ask_ok.mp h₂
        have hr : respacing .exceptBranch .delimiter d = [] := by
          cases d with
          | text x =>
            simp only [Datum.text.injEq] at hy hz
            simp only [respacing,if_neg hy,if_neg hz]
          | _ => rfl
        rw [hr]
        cases b with
        | true =>
          obtain ⟨_,_,hthrow,-⟩ := Edit.bind_ok.mp h₂
          exact absurd hthrow Edit.throw_ok
        | false => exact pure_prepared hc _ _ _ h₂
  case h_10 k _ _ _ _ _ _ _ hdotted hname _ hexcept =>
    unfold Kind.respaces at hf
    split at hf
    · exact absurd rfl (hdotted rfl)
    · exact absurd rfl (hname rfl)
    · exact absurd rfl (hexcept rfl)
    · cases hf
  all_goals
    next heq =>
    cases heq
    cases hf

theorem prepareStore_datum (hb : c.building = true) (d : Datum) :
    (prepareStore n c.kind (.field f) (.ofDatum d)).Yields p s
      (fun v' t => v' = c.kind.keeps f (.ofDatum d) ∧ Prepared n c (respacing c.kind f d) s t) := by
  cases hs : c.kind.respaces f with
  | false =>
    rw [respacing_eq_nil hs]
    exact prepareStore_plain hc hs
  | true =>
    rw [Kind.keeps_eq (by rintro hk rfl; rw [hk] at hs; cases hs)]
    exact prepareStore_respaces hc hb hs d

end Prepare

/-- A text that is more than blanks. -/
def Datum.Inked (d : Datum) : Prop := ∃ x, d = .text x ∧ ∃ c ∈ x.toList, c ≠ ' '

theorem isName_inked (h : isName x = true) : ∃ c ∈ x.toList, c ≠ ' ' := by
  unfold isName at h
  cases hx : x.toList with
  | nil => simp [hx] at h
  | cons c rest =>
    simp only [hx,Bool.and_eq_true] at h
    refine ⟨c,List.mem_cons_self,?_⟩
    rintro rfl
    exact absurd h.1 (by decide)

/-- Spacing is set only next to a word. -/
theorem prepareStore_inked (hr : respacing k f d ≠ []) :
    (prepareStore n k (.field f) (.ofDatum d)).Yields p s (fun _ _ => d.Inked) := by
  have halias : ∀ {why : Refusal} {rest : Unit → Edit Value}, respacing .dottedAsName .target d ≠ [] →
      (liftM (checkName why (.ofDatum d)) >>= rest : Edit Value).Yields p s (fun _ _ => d.Inked) := by
    intro why rest hr v' t h
    obtain ⟨u,hname,-⟩ := Edit.ask_ok.mp h
    cases d with
    | text x =>
      simp only [Value.ofDatum,checkName] at hname
      split at hname
      · next hx =>
        simp only [Bool.or_eq_true,beq_iff_eq] at hx
        rcases hx with hx | rfl
        · exact ⟨x,rfl,isName_inked hx⟩
        · exact absurd rfl hr
      · exact absurd hname Read.throw_ok
    | _ => exact absurd rfl hr
  unfold prepareStore
  split
  case h_6 heq =>
    cases heq
    exact halias hr
  case h_7 heq =>
    cases heq
    have heq : respacing .nameAsName .target d = respacing .dottedAsName .target d := by cases d <;> rfl
    exact halias (heq ▸ hr)
  case h_9 heq =>
    cases heq
    intro _ _ _
    cases d with
    | text x =>
      by_cases hc : x = ","
      · exact ⟨x,rfl,',',by simp [hc],by decide⟩
      · by_cases ha : x = "as"
        · exact ⟨x,rfl,'a',by simp [ha],by decide⟩
        · simp [respacing,hc,ha] at hr
    | _ => exact absurd rfl hr
  case h_10 k _ _ _ _ _ _ _ hdotted hname _ hexcept =>
    unfold respacing at hr
    split at hr
    · exact absurd rfl (hdotted rfl)
    · exact absurd rfl (hname rfl)
    · exact absurd rfl (hexcept rfl)
    · exact absurd rfl hr
  all_goals
    next heq =>
    cases heq
    exact absurd rfl hr

end Spacing

section Storing

/-- What is stored under a field is found there. -/
theorem look_stored (hc : s.nodes[n.index]? = some c) (hv : c.stored? (.field f) = some v) :
    look n (.field f) s = .ok v := by
  unfold look
  simp only [Read.bind_ok,Read.depth_ok,exists_eq_left']
  unfold Store.depth lookAt
  simp only [Read.bind_ok,Read.node_ok]
  refine ⟨c,hc,?_⟩
  rw [NodeCell.own_field,hv]
  rfl

/-- What a new view of a list shows, and in which style. -/
structure Viewed (s : Store) (form : ViewForm) (target : Value) (shown : List Value) (style : Option Value) :
    Prop where
  lines : form.lineBased = true → ∃ all, items target s = .ok all ∧ lineItems false .none all s = .ok shown
  others : form.lineBased = false → significant target s = .ok shown
  comma : form = .comma → ∃ b, isIndented target s = .ok b ∧
    style = some (.text (if b then "indented" else "flat"))
  plain : form ≠ .comma → style = none

theorem newViewOf_ok {target : Value} {w : ViewId} (h : newViewOf form target place p s = .ok w t) :
    ∃ shown style, w = ⟨s.views.size⟩ ∧ t = s.addView ⟨form,target,shown,place,none,style,[]⟩ ∧
      Viewed s form target shown style := by
  unfold newViewOf at h
  obtain ⟨shown,hshown,h⟩ := Edit.ask_ok.mp h
  dsimp only at h
  by_cases hcomma : form = .comma
  · subst hcomma
    obtain ⟨b,hb,h⟩ := Edit.ask_ok.mp h
    cases h
    exact ⟨shown,_,rfl,rfl,by simp [ViewForm.lineBased],fun _ => hshown,fun _ => ⟨b,hb,rfl⟩,
      fun h => absurd rfl h⟩
  · rw [if_neg (by simpa using hcomma)] at h
    by_cases hlines : form.lineBased = true
    · obtain ⟨_,_,h₁,h⟩ := Edit.bind_ok.mp h
      obtain ⟨rfl,rfl⟩ := Edit.pure_ok.mp h₁
      rw [if_pos hlines] at h
      obtain ⟨all,hall,h⟩ := Edit.ask_ok.mp h
      obtain ⟨shown',_,h₁,h⟩ := Edit.bind_ok.mp h
      obtain ⟨hshown',rfl⟩ := Edit.read_ok.mp h₁
      cases h
      exact ⟨shown',none,rfl,rfl,fun _ => ⟨all,hall,hshown'⟩,fun h => by simp [hlines] at h,
        fun h => absurd h hcomma,fun _ => rfl⟩
    · obtain ⟨_,_,h₁,h⟩ := Edit.bind_ok.mp h
      obtain ⟨rfl,rfl⟩ := Edit.pure_ok.mp h₁
      rw [if_neg hlines] at h
      cases h
      exact ⟨shown,none,rfl,rfl,fun h => absurd h hlines,fun _ => hshown,fun h => absurd h hcomma,fun _ => rfl⟩

/-- A field of a node that is being built has been stored, and spacing set on the way. -/
structure Stored (n : NodeId) (c c' : NodeCell) (f : Field) (spacing : List (Field × Bool)) (v : Value)
    (s t : Store) : Prop where
  grows : s.GrowsOff n t
  cell : t.nodes[n.index]? = some c'
  rewrites : Rewrites c c' (spacing.map Prod.fst ++ [f])
  held : c'.stored? (.field f) = some v
  spaces : Spaced t n c' spacing (· ≠ f) s.mark t.mark

theorem storeBuilt_prepared (hc : s.nodes[n.index]? = some c) (h : storeBuilt n f v p s = .ok () t) :
    ∃ v' s', prepareStore n c.kind (.field f) v p s = .ok v' s' := by
  unfold storeBuilt at h
  replace h := (Edit.node_known hc).symm.trans h
  obtain ⟨v',s₁,h₁,-⟩ := Edit.bind_ok.mp h
  exact ⟨v',s₁,h₁⟩

theorem setHolders_run {xs : List Value} (hxs : ∀ x ∈ xs, ∃ m, x = .node m) (parent : Value) (place : Option Attr) (p : Parser) (s : Store) :
    ∃ t, setHolders parent place xs p s = .ok () t ∧ t.lists = s.lists ∧ t.views = s.views := by
  induction xs generalizing s with
  | nil => exact ⟨s,rfl,rfl,rfl⟩
  | cons x xs ih =>
    obtain ⟨m,rfl⟩ := hxs x List.mem_cons_self
    obtain ⟨t,ht,hcells⟩ := ih (List.forall_mem_cons.mp hxs).2 (s.mapNode m (fun c => { c with parent := parent, place := place }))
    exact ⟨t,Edit.bind_ok.mpr ⟨(),_,rfl,ht⟩,hcells⟩

theorem wrapHeld_plain (hc : s.nodes[n.index]? = some c) (hview : c.kind.viewForm f = none) :
    wrapHeld n (.field f) p s = .ok () s := by
  unfold wrapHeld
  rw [Edit.node_known hc]
  dsimp only
  rw [hview]
  rfl

section Run
variable {n : NodeId} {c : NodeCell} {s t : Store} {p : Parser} {f : Field} {v w : Value}
variable {spacing : List (Field × Bool)} (hc : s.nodes[n.index]? = some c)
  (hprep : (prepareStore n c.kind (.field f) v).Yields p s (fun v' t => v' = w ∧ Prepared n c spacing s t))
  (h : storeBuilt n f v p s = .ok () t)
include hc hprep h

theorem storeBuilt_put : ∃ c' s', Stored n c c' f spacing w s s' ∧ wrapHeld n (.field f) p s' = .ok () t := by
  unfold storeBuilt at h
  replace h := (Edit.node_known hc).symm.trans h
  obtain ⟨v',s₁,h₁,h⟩ := Edit.bind_ok.mp h
  obtain ⟨rfl,hg,c₁,hc₁,hrew,hsp⟩ := hprep v' s₁ h₁
  obtain ⟨_,s₂,h₁,h⟩ := Edit.bind_ok.mp h
  cases h₁
  have hn := Store.lt_nodes_of_get hc
  refine ⟨c₁.put (.field f) v',_,⟨hg.trans (Store.growsOff_mapNode s₁ n _),?_,?_,?_,?_⟩,h⟩
  · exact Store.mapNode_self hc₁
  · exact hrew.trans (Rewrites.put c₁ f v')
  · exact NodeCell.stored_put_self _ _ _
  · have ha : Store.Agree s.mark s₁.mark s₁ (s₁.mapNode n (·.put (.field f) v')) :=
      (Store.growsOff_mapNode s₁ n _).agree hn (Mark.le_refl _)
    refine hsp.move ha (Mark.le_refl _) (Store.growsOff_mapNode s₁ n (·.put (.field f) v')).mark ?_
    intro x _ hxf
    exact ⟨trivial,NodeCell.stored_put_of_ne (by intro h; cases h; exact hxf rfl)⟩

theorem storeBuilt_plain (hview : c.kind.viewForm f = none) : ∃ c', Stored n c c' f spacing w s t := by
  obtain ⟨c',s',hst,hw⟩ := storeBuilt_put hc hprep h
  cases hw.symm.trans (wrapHeld_plain hst.cell (hst.rewrites.kind ▸ hview))
  exact ⟨c',hst⟩

theorem storeBuilt_view (hb : c.building = true) (hview : c.kind.viewForm f = some form) {l : ListId} (hl : w = .list l) :
    ∃ c' s' shown style, Stored n c c' f spacing (.view ⟨s'.views.size⟩) s t ∧
      s.GrowsOff n s' ∧ Viewed s' form (.list l) shown style ∧
      s'.GrowsOff n t ∧ t.views.size = s'.views.size + 1 ∧
      t.views[s'.views.size]? = some ⟨form,.list l,shown,some (.field f),none,style,[]⟩ := by
  obtain ⟨c',s',hst,hw⟩ := storeBuilt_put hc hprep h
  subst hl
  unfold wrapHeld at hw
  replace hw := (Edit.node_known hst.cell).symm.trans hw
  dsimp only at hw
  rw [hst.rewrites.kind,hview] at hw
  obtain ⟨heldValue,hr,hw⟩ := Edit.ask_ok.mp hw
  rw [look_stored hst.cell hst.held] at hr
  cases hr
  obtain ⟨_,_,h₁,hw⟩ := Edit.bind_ok.mp hw
  obtain ⟨rfl,rfl⟩ := Edit.pure_ok.mp h₁
  rw [if_neg Bool.false_ne_true] at hw
  obtain ⟨w,s₁,h₁,hw⟩ := Edit.bind_ok.mp hw
  obtain ⟨shown,style,rfl,rfl,hv⟩ := newViewOf_ok h₁
  simp only [hst.rewrites.building,hb,Bool.not_true,Bool.false_and] at hw
  cases hw
  have hn := Store.lt_nodes_of_get hc
  let view : ViewCell := ⟨form,.list l,shown,some (.field f),none,style,[]⟩
  let t := (s'.addView view).mapNode n (·.put (.field f) (.view ⟨s'.views.size⟩))
  have hgrows : s'.GrowsOff n t := ((Store.grows_addView _ _).off n).trans (Store.growsOff_mapNode _ _ _)
  refine ⟨c'.put (.field f) (.view ⟨s'.views.size⟩),s',shown,style,⟨hst.grows.trans hgrows,?_,?_,?_,?_⟩,hst.grows,hv,
    hgrows,?_,?_⟩
  · change t.nodes[n.index]? = _
    simp only [t,Store.mapNode_get,Store.addView_nodes,hst.cell]
    rfl
  · have hrew := hst.rewrites.trans (Rewrites.put c' f (.view ⟨s'.views.size⟩))
    refine ⟨hrew.kind,hrew.parent,hrew.place,hrew.building,hrew.texts,hrew.lists,hrew.children,hrew.origin,
      fun g hg => hrew.stored g ?_,hrew.others⟩
    simpa using hg
  · exact NodeCell.stored_put_self _ _ _
  · refine hst.spaces.move (hgrows.agree hn (Mark.le_refl _)) (Mark.le_refl _) hgrows.mark ?_
    intro x _ hxf
    exact ⟨hxf,NodeCell.stored_put_of_ne (by intro h; cases h; exact hxf rfl)⟩
  · change t.views.size = _
    simp [t]
  · change t.views[s'.views.size]? = _
    simp only [t,Store.mapNode_views,Store.addView_get,if_pos]
    rfl

end Run

end Storing

end CodeTree
