import CodeTree.Proofs.Frames
import CodeTree.Proofs.Planting

/-! # Values put into a view

What stands for a value that is put into a list. Converting a value changes no items of lists and
views that were there before, and gives nodes; what the conversion leaves out are separators.
-/
namespace CodeTree
variable {α β : Type} {F : Freedom} {K : Store → Prop} {p : Parser} {s t : Store} {word : String} {xs vs : List Value}
  {l : ListId} {a b : Mark} {n m : NodeId} {K' : Store → Prop} {v x : Value}

/-- What stays true while edits keep to a freedom. -/
def Stable (F : Freedom) (K : Store → Prop) : Prop := ∀ s t, K s → s.Frame F t → K t

theorem Stable.and (h : Stable F K) (h' : Stable F K') : Stable F (fun s => K s ∧ K' s) :=
  fun s t hs hF => ⟨h s t hs.1 hF,h' s t hs.2 hF⟩

theorem stable_tells (ht : F.KeepsTypes) (word : String) (v : Value) :
    Stable F (fun s => s.Tells word v) :=
  fun _ _ hs hF => hs.frame hF ht

/-- A list of some flavour with some items. -/
def Store.HasItems (s : Store) (l : ListId) (flavour : Flavour) (xs : List Value) : Prop :=
  ∃ c, s.lists[l.index]? = some c ∧ c.flavour = flavour ∧ c.items = xs

theorem stable_hasItems (hl : ¬ F.list l) (flavour : Flavour) (xs : List Value) :
    Stable F (fun s => s.HasItems l flavour xs) := by
  rintro s t ⟨c,hc,hflavour,hitems⟩ hF
  obtain ⟨d,hd,hkeeps⟩ := hF.list hc
  exact ⟨d,hd,hkeeps.flavour.trans hflavour,(hkeeps.items hl).trans hitems⟩

theorem Store.HasItems.frame {flavour : Flavour} {xs : List Value} (h : s.HasItems l flavour xs) (hF : s.Frame F t)
    (hl : ¬ F.list l) : t.HasItems l flavour xs := stable_hasItems hl flavour xs s t h hF

/-- An edit that keeps to a freedom as long as something holds, which it then still does, and what
its result is like. -/
abbrev Gives (F : Freedom) (K : Store → Prop) (after : α → Store → Prop) (e : Edit α) : Prop :=
  e.Meets K (Store.Frame F) (fun a s => K s ∧ after a s)

namespace Gives
variable {mid : α → Store → Prop} {after : β → Store → Prop}

theorem bind {x : Edit α} {f : α → Edit β} (hx : Gives F K mid x)
    (hf : ∀ a, Gives F (fun s => K s ∧ mid a s) after (f a)) : Gives F K after (x >>= f) :=
  Edit.Meets.bind (fun _ _ _ => Store.Frame.trans) hx
    (fun a => Edit.Meets.weaken (hf a) (fun _ h => h) (fun _ _ h => ⟨h.1.1,h.2⟩))

theorem pure {a : α} (h : ∀ s, K s → mid a s) : Gives F K mid (Pure.pure a : Edit α) :=
  Edit.Meets.pure (Store.Frame.refl F) (fun s hs => ⟨hs,h s hs⟩)

theorem throw (e : Fault) : Gives F K mid (MonadExcept.throw e : Edit α) := Edit.Meets.throw (Store.Frame.refl F)

theorem weaken {mid' : α → Store → Prop} {e : Edit α} (h : Gives F K mid e)
    (ha : ∀ a s, K s → mid a s → mid' a s) : Gives F K mid' e :=
  Edit.Meets.weaken h (fun _ h => h) (fun a s h => ⟨h.1,ha a s h.1 h.2⟩)

/-- An edit that depends on the answer to a question. -/
theorem ask {r : Read α} {f : α → Edit β} (h : ∀ s a, K s → r s = .ok a → Gives F K after (f a)) :
    Gives F K after (do f (← r) : Edit β) :=
  Edit.Meets.ask (Store.Frame.refl F) h

theorem each {e : Edit α} (h : ∀ s, K s → e.Meets (fun s' => s' = s) (Store.Frame F) (fun a t => K t ∧ mid a t)) :
    Gives F K mid e := fun p s hs => h s hs p s rfl

theorem learn {r : Read α} {f : α → Edit β} {R : α → Store → Prop} (hR : ∀ a s, K s → r s = .ok a → R a s)
    (h : ∀ a, Gives F (fun s => K s ∧ R a s) after (f a)) : Gives F K after (do f (← r) : Edit β) :=
  .bind (Edit.Meets.read (Store.Frame.refl F) (fun a s hs hr => ⟨hs,hR a s hs hr⟩)) h

theorem and {e : Edit α} (h : Gives F K mid e) (hK : Stable F K') : Gives F (fun s => K s ∧ K' s) mid e := by
  intro p s hs
  have hm := h p s hs.1
  split
  · next a t he =>
    rw [he] at hm
    exact ⟨hm.1,⟨hm.2.1,hK s t hs.2 hm.1⟩,hm.2.2⟩
  · next fault t he =>
    rw [he] at hm
    exact hm

/-- What holds of every result of an edit that keeps to a freedom. -/
theorem of_within (hK : Stable F K) {e : Edit α} (h : Within F e)
    (ha : ∀ p s a t, K s → e p s = .ok a t → mid a t) : Gives F K mid e := by
  intro p s hs
  have hm := h p s trivial
  split
  · next a t he =>
    rw [he] at hm
    exact ⟨hm.1,hK s t hs hm.1,ha p s a t hs he⟩
  · next fault t he =>
    rw [he] at hm
    exact hm

/-- First something that keeps to the freedom, whatever comes of it. -/
theorem first (hK : Stable F K) {x : Edit α} {f : α → Edit β} (hx : Within F x)
    (hf : ∀ a, Gives F K after (f a)) : Gives F K after (x >>= f) := by
  have hstays : Gives F K (fun _ _ => True) x := of_within hK hx (fun _ _ _ _ _ _ => trivial)
  exact Edit.Meets.bind (fun _ _ _ => Store.Frame.trans)
    (Edit.Meets.weaken hstays (fun _ h => h) (fun _ _ h => h.1)) hf

end Gives

/-- A value that can be told what holds it without a list or view being moved. -/
def Value.movable : Value → Bool
  | .list _ | .view _ => false
  | _ => true

/-- What a value that is put into a list has to be made of: nodes that go by the type of a separator
only if they are one. -/
def Store.Sound (word : String) (s : Store) : Value → Prop
  | .node n => s.Tells word (.node n)
  | .list l => ∃ c, s.lists[l.index]? = some c ∧ ∀ x ∈ c.items,
      if c.flavour = .nodes then s.Tells word x else ∀ n, x = .node n → s.Tells word x
  | .view w => (∃ c, s.views[w.index]? = some c ∧ ∀ x ∈ c.items, x.movable = true) ∧
      ∃ l c, underlying (.view w) s = .ok (.list l) ∧ s.lists[l.index]? = some c ∧ ∀ x ∈ c.items, s.Tells word x
  | _ => True

theorem underlyingAt_frame (hF : s.Frame F t) {fuel fuel' : Nat} (hle : fuel ≤ fuel')
    (h : underlyingAt fuel v s = .ok (.list l)) : underlyingAt fuel' v t = .ok (.list l) := by
  induction fuel generalizing v fuel' with
  | zero => exact absurd h Read.throw_ok
  | succ fuel ih =>
    obtain ⟨fuel',rfl⟩ : ∃ m, fuel' = m + 1 := ⟨fuel' - 1,by omega⟩
    cases v with
    | view w =>
      simp only [underlyingAt,Read.bind_ok,Read.view_ok] at h ⊢
      obtain ⟨c,hc,h⟩ := h
      obtain ⟨d,hd,hkeeps⟩ := hF.view hc
      refine ⟨d,hd,?_⟩
      rw [hkeeps.target]
      exact ih (by omega) h
    | _ => exact h

theorem underlying_frame (hF : s.Frame F t) (h : underlying v s = .ok (.list l)) : underlying v t = .ok (.list l) := by
  unfold underlying at h ⊢
  simp only [Read.bind_ok,Read.depth_ok,exists_eq_left'] at h ⊢
  exact underlyingAt_frame hF hF.depth_le h

theorem Store.Sound.frame (h : s.Sound word v) (hF : s.Frame F t) (ht : F.KeepsTypes)
    (hl : ∀ l, ¬ F.list l) (hv : ∀ w, ¬ F.view w) : t.Sound word v := by
  cases v with
  | node n => exact Store.Tells.frame h hF ht
  | list l =>
    obtain ⟨c,hc,hitems⟩ := h
    obtain ⟨d,hd,hkeeps⟩ := hF.list hc
    refine ⟨d,hd,fun x hx => ?_⟩
    rw [hkeeps.items (hl l)] at hx
    rw [hkeeps.flavour]
    have hsound := hitems x hx
    split at hsound
    · next hf =>
      rw [if_pos hf]
      exact hsound.frame hF ht
    · next hf =>
      rw [if_neg hf]
      exact fun n hn => (hsound n hn).frame hF ht
  | view w =>
    obtain ⟨⟨c,hc,hmovable⟩,l,e,hl',he,htells⟩ := h
    obtain ⟨d,hd,hkeeps⟩ := hF.view hc
    obtain ⟨e',he',hkeeps'⟩ := hF.list he
    refine ⟨⟨d,hd,?_⟩,l,e',underlying_frame hF hl',he',?_⟩
    · rw [hkeeps.items (hv w)]
      exact hmovable
    · rw [hkeeps'.items (hl l)]
      exact fun x hx => (htells x hx).frame hF ht
  | _ => trivial

/-- The items of a value that do not separate others. -/
def Store.Parts (word : String) (s : Store) (v : Value) : Prop :=
  ∀ xs, significant v s = .ok xs → ∀ x ∈ xs, s.Item word x

theorem Store.Tells.movable (h : s.Tells word v) : v.movable = true := by
  obtain ⟨_,_,⟨n,_,rfl,-⟩,-⟩ := h
  rfl

theorem withoutSeparators_mem {ys : List Value} (h : withoutSeparators xs s = .ok ys) :
    ∀ y ∈ ys, y ∈ xs ∧ separates y s = .ok false := by
  induction xs generalizing ys with
  | nil =>
    simp only [withoutSeparators,Read.pure_ok] at h
    simp [← h]
  | cons x xs ih =>
    simp only [withoutSeparators,Read.bind_ok,Read.pure_ok] at h
    obtain ⟨others,hothers,b,hb,rfl⟩ := h
    intro y hy
    cases b with
    | true =>
      obtain ⟨hmem,hsep⟩ := ih hothers y hy
      exact ⟨List.mem_cons_of_mem _ hmem,hsep⟩
    | false =>
      rcases List.mem_cons.mp hy with rfl | hy
      · exact ⟨List.mem_cons_self,hb⟩
      · obtain ⟨hmem,hsep⟩ := ih hothers y hy
        exact ⟨List.mem_cons_of_mem _ hmem,hsep⟩

theorem significant_ok (h : underlying v s = .ok (.list l)) (hxs : significant v s = .ok xs) :
    ∃ c, s.lists[l.index]? = some c ∧ withoutSeparators c.items s = .ok xs := by
  unfold significant at hxs
  simp only [Read.bind_ok] at hxs
  obtain ⟨u,hu,hxs⟩ := hxs
  rw [h] at hu
  cases hu
  simp only [significantIn,Read.bind_ok,Read.list_ok] at hxs
  obtain ⟨c,hc,hxs⟩ := hxs
  split at hxs
  · exact ⟨c,hc,hxs⟩
  · exact absurd hxs Read.throw_ok

theorem parts_underlying (h : underlying v s = .ok (.list l))
    (hitems : ∀ c, s.lists[l.index]? = some c → ∀ x ∈ c.items, s.Tells word x) : s.Parts word v := by
  intro xs hxs
  obtain ⟨c,hc,hxs⟩ := significant_ok h hxs
  intro x hx
  obtain ⟨hmem,hsep⟩ := withoutSeparators_mem hxs x hx
  exact (hitems c hc x hmem).item hsep

theorem underlying_list (l : ListId) (s : Store) : underlying (.list l) s = .ok (.list l) := by
  unfold underlying
  simp only [Read.bind_ok,Read.depth_ok,exists_eq_left']
  rfl

namespace Within

theorem setHolder (h : v.movable = true) (parent : Value) (place : Option Attr) : Within F (setHolder v parent place) := by
  unfold CodeTree.setHolder
  cases v with
  | node n => exact fun _ s _ => ⟨Store.frame_mapNode (fun c => ⟨rfl,rfl,rfl,rfl,rfl,fun _ h => h,fun _ _ => rfl⟩),trivial⟩
  | list l => cases h
  | view w => cases h
  | _ => exact throw _

theorem setHolders (h : ∀ x ∈ xs, x.movable = true) (parent : Value) (place : Option Attr) :
    Within F (setHolders parent place xs) := by
  induction xs with
  | nil => exact pure _
  | cons x xs ih =>
    exact bind (setHolder (h x List.mem_cons_self) _ _) (fun _ => ih (List.forall_mem_cons.mp h).2)

theorem newLooseList (xs : List Value) : Within F (newLooseList xs) := of_adds (Adds.newList _)

theorem buildList (d : Datum) (parent : Value) (place : Option Attr) : Within F (buildList d parent place) :=
  bind (of_adds (buildItems_adds _ _ _)) (fun _ => of_adds (Adds.newList _))

theorem parseWithin (before text after : String) (keys : List Key) :
    Within F (parseWithin before text after keys) :=
  bind (of_adds (Adds.parse _)) (fun _ => lift _)

end Within

section Built
variable {d : Datum} {parent : Value} {place : Option Attr}

theorem Kept.honest (h : Kept (build d parent place) p a b n t) : t.Honest (.node n) := by
  obtain ⟨fields,k,c,-,hg⟩ := h.grown
  exact ⟨k,⟨n,c,rfl,hg.cell,hg.kind,hg.type⟩,hg.known⟩

theorem Kept.all_honest {ds : List Datum} {ms : List Value} (h : Kept (buildEach ds parent place) p a b ms t) :
    ∀ m ∈ ms, t.Honest m := by
  induction ds generalizing a ms with
  | nil =>
    rw [h.nil]
    simp
  | cons d ds ih =>
    obtain ⟨n,rest,e,rfl,hd,hds,-,-⟩ := h.cons
    intro m hm
    rcases List.mem_cons.mp hm with rfl | hm
    · exact hd.honest
    · exact ih hds m hm

theorem build_honest (h : build d parent place p s = .ok n t) : t.Honest (.node n) :=
  (Kept.of_run h).honest

theorem buildList_honest (h : buildList d parent place p s = .ok l t) :
    ∀ c, t.lists[l.index]? = some c → ∀ x ∈ c.items, t.Honest x := by
  obtain ⟨-,ms,ds,_,hl,hrow,-⟩ := buildList_kept h
  intro c hc
  cases hl.symm.trans hc
  exact hrow.all_honest

end Built

/-- A list of nodes that go by the type of a separator only if they are one. -/
def Store.Tellers (word : String) (s : Store) (l : ListId) : Prop :=
  ∀ c, s.lists[l.index]? = some c → ∀ x ∈ c.items, s.Tells word x

/-- The word of a separator names separators only. -/
def Separating (word : String) : Prop := ∀ k, Kind.ofWord? word = some k → k.separates = true

theorem newLooseList_ok (h : newLooseList xs p s = .ok l t) : l = ⟨s.lists.size⟩ ∧ t = s.addList ⟨.nodes,xs,.none,none,[]⟩ :=
  (Edit.newList_ok (p := p)).mp h

theorem newLooseList_items (h : newLooseList xs p s = .ok l t) : t.HasItems l .nodes xs := by
  obtain ⟨rfl,rfl⟩ := newLooseList_ok h
  exact ⟨_,by rw [Store.addList_get,if_pos rfl],rfl,rfl⟩

theorem Store.HasItems.tellers (h : s.HasItems l flavour xs) (hxs : ∀ x ∈ xs, s.Tells word x) : s.Tellers word l := by
  obtain ⟨c,hc,-,rfl⟩ := h
  intro d hd
  cases hc.symm.trans hd
  exact hxs

theorem buildList_tellers (hw : Separating word) {d : Datum} {parent : Value} {place : Option Attr}
    (h : buildList d parent place p s = .ok l t) : t.Tellers word l :=
  fun c hc x hx => (buildList_honest h c hc x hx).tells hw

/-- What a value has to be to become a list: `T` is asked of the nodes that become its items, `Q` of
a list that is taken as it is. -/
def Store.Serves (T Q : Store → Value → Prop) (s : Store) : Value → Prop
  | .node n => T s (.node n)
  | .list l => ∃ c, s.lists[l.index]? = some c ∧
      (c.flavour = .nodes → Q s (.list l) ∧ ∀ x ∈ c.items, x.movable = true) ∧
      (c.flavour = .plain → ∀ x ∈ c.items, ∀ n, x = .node n → T s x)
  | .view w => Q s (.view w) ∧ ∃ c, s.views[w.index]? = some c ∧ ∀ x ∈ c.items, x.movable = true
  | _ => True

theorem Store.Sound.serves (h : s.Sound word v) : s.Serves (fun s v => s.Tells word v) (fun s v => s.Parts word v) v := by
  cases v with
  | node n => exact h
  | view w =>
    obtain ⟨hmovable,l,c,hl,hc,htells⟩ := h
    exact ⟨parts_underlying hl (Store.HasItems.tellers ⟨c,hc,rfl,rfl⟩ htells),hmovable⟩
  | list l =>
    obtain ⟨c,hc,hitems⟩ := h
    refine ⟨c,hc,fun hf => ?_,fun hf => ?_⟩
    · simp only [hf,if_true] at hitems
      exact ⟨parts_underlying (underlying_list l s) (Store.HasItems.tellers ⟨c,hc,rfl,rfl⟩ hitems),fun x hx => (hitems x hx).movable⟩
    · simpa only [hf,reduceCtorEq,if_false] using hitems
  | _ => trivial

section Values
variable (hK : Stable F K) (hw : Separating word) {ofText : String → Value → Option Attr → Edit Value} {listOfText : String → Value → Option Attr → Edit ListId}
  {parent : Value} {place : Option Attr}
include hK

section Lists
variable {Q : ListId → Store → Prop} (hlist : ∀ d p s l t, buildList d parent place p s = .ok l t → Q l t)
include hlist

theorem buildList_gives (d : Datum) : Gives F K Q (buildList d parent place) :=
  .of_within hK (.buildList _ _ _) (fun p s l t _ h => hlist d p s l t h)

theorem parsed_gives {e : Edit Datum} (h : Within F e) : Gives F K Q (do buildList (← e) parent place) :=
  .first hK h (fun d => buildList_gives hK hlist d)

theorem tupleOf_gives (text : String) : Gives F K Q (do
    let d ← parseWithin "(" text ")" (at0 [.name "value"])
    match d with
    | .list _ => buildList d parent place
    | _ => buildList (← parseWithin "(" text ",)" (at0 [.name "value"])) parent place) := by
  refine .first hK (.parseWithin _ _ _ _) (fun d => ?_)
  split
  · exact buildList_gives hK hlist _
  · exact parsed_gives hK hlist (.parseWithin _ _ _ _)

end Lists

section Nodes
variable {T Q : Store → Value → Prop} (hT : ∀ v, Stable F (fun s => T s v)) (hl : ∀ l, ¬ F.list l)
  (hbuilt : ∀ d p s n t, build d parent place p s = .ok n t → T t (.node n))
  (hloose : ∀ s l xs, s.HasItems l .nodes xs → (∀ x ∈ xs, T s x) → Q s (.list l))
  (h : ∀ text, Gives F K (fun v s => T s v) (ofText text parent place))

include hbuilt in
theorem build_gives (d : Datum) : Gives F K (fun n s => T s (.node n)) (build d parent place) :=
  .of_within hK (.of_adds (build_adds _ _ _)) (fun p s n t _ hn => hbuilt d p s n t hn)

include hbuilt h in
theorem nodeFrom_gives (hv : ∀ s, K s → ∀ n, v = .node n → T s v) :
    Gives F K (fun v s => T s v) (nodeFrom ofText v parent place) := by
  unfold nodeFrom
  cases v with
  | text s => exact h s
  | data d =>
    cases d with
    | record fields => exact .bind (build_gives hK hbuilt _) (fun _ => .pure (fun _ hs => hs.2))
    | _ => exact .throw _
  | node n =>
    exact .first hK (.setHolder rfl _ _) (fun _ => .pure (fun s hs => hv s hs n rfl))
  | _ => exact .throw _

include hT hbuilt h in
theorem nodesFrom_gives (hvs : ∀ s, K s → ∀ v ∈ vs, ∀ n, v = .node n → T s v) :
    Gives F K (fun xs s => ∀ x ∈ xs, T s x) (nodesFrom ofText parent place vs) := by
  induction vs with
  | nil => exact .pure (by simp)
  | cons v vs ih =>
    refine .bind (nodeFrom_gives hK hbuilt h (fun s hs => hvs s hs v List.mem_cons_self)) (fun first => ?_)
    have hrest := ih (fun s hs v hv => hvs s hs v (List.mem_cons_of_mem _ hv))
    refine .bind (hrest.and (hT first)) (fun others => .pure ?_)
    rintro s ⟨⟨-,hfirst⟩,hothers⟩ x hx
    rcases List.mem_cons.mp hx with rfl | hx
    · exact hfirst
    · exact hothers x hx

include hloose in
theorem loose_gives (hxs : ∀ s, K s → ∀ x ∈ xs, T s x) :
    Gives F K (fun v s => Q s v) (do return .list (← newLooseList xs) : Edit Value) := by
  have hlist : Gives F K (fun l s => s.HasItems l .nodes xs) (newLooseList xs) :=
    .of_within hK (.newLooseList _) (fun p s l t _ h => newLooseList_items h)
  exact .bind hlist (fun l => .pure (fun s hs => hloose s l xs hs.2 (hxs s hs.1)))

include hT hbuilt hloose h

theorem looseFrom_gives (hvs : ∀ s, K s → ∀ v ∈ vs, ∀ n, v = .node n → T s v) :
    Gives F K (fun v s => Q s v) (do return .list (← newLooseList (← nodesFrom ofText parent place vs)) : Edit Value) := by
  refine .bind (nodesFrom_gives hK hT hbuilt h hvs) (fun xs => ?_)
  have hall : Stable F (fun s => ∀ x ∈ xs, T s x) := fun s t hs hF x hx => hT x s t (hs x hx) hF
  exact loose_gives (hK.and hall) hloose (fun s hs => hs.2)

include hl in
/-- The list that a value stands for. -/
theorem listFrom_gives (hlist : ∀ text, Gives F K (fun l s => Q s (.list l)) (listOfText text parent place))
    (hv : ∀ s, K s → s.Serves T Q v) :
    Gives F K (fun v s => Q s v) (listFrom ofText listOfText v parent place) := by
  unfold listFrom
  cases v with
  | text x => exact .bind (hlist x) (fun l => .pure (fun s hs => hs.2))
  | data d =>
    cases d with
    | record fields =>
      refine .bind (build_gives hK hbuilt _) (fun n => loose_gives (hK.and (hT _)) hloose (fun s hs x hx => ?_))
      rw [List.mem_singleton.mp hx]
      exact hs.2
    | list ds => exact looseFrom_gives hK hT hbuilt hloose h (fun _ _ v hv n hn => by
        subst hn
        obtain ⟨d,-,hd⟩ := List.mem_map.mp hv
        cases d <;> cases hd)
    | _ => exact .throw _
  | keys ks => exact looseFrom_gives hK hT hbuilt hloose h (fun _ _ v hv n hn => by
      subst hn
      obtain ⟨k,-,hk⟩ := List.mem_map.mp hv
      cases k <;> cases hk)
  | node n =>
    refine .first hK (.setHolder rfl _ _) (fun _ => loose_gives hK hloose (fun s hs x hx => ?_))
    rw [List.mem_singleton.mp hx]
    exact hv s hs
  | view w =>
    refine .ask (fun s c hs hc => ?_)
    obtain ⟨c',hc',hmovable⟩ := (hv s hs).2
    cases (Read.view_ok.mp hc).symm.trans hc'
    exact .first hK (.setHolders hmovable _ _) (fun _ => .pure (fun s hs => (hv s hs).1))
  | list l =>
    refine .learn (R := fun c s => s.HasItems l c.flavour c.items) (fun c s _ hc => ⟨c,Read.list_ok.mp hc,rfl,rfl⟩) (fun c => ?_)
    have hserves : ∀ s, K s ∧ s.HasItems l c.flavour c.items →
        (c.flavour = .nodes → Q s (.list l) ∧ ∀ x ∈ c.items, x.movable = true) ∧
        (c.flavour = .plain → ∀ x ∈ c.items, ∀ n, x = .node n → T s x) := by
      rintro s ⟨hs,d,hd,hflavour,hitems⟩
      obtain ⟨d',hd',hx⟩ := hv s hs
      cases hd.symm.trans hd'
      rwa [hflavour,hitems] at hx
    have hK' := hK.and (stable_hasItems (hl l) c.flavour c.items)
    cases hf : c.flavour with
    | nodes =>
      simp only [hf,true_imp_iff] at hserves hK'
      intro p s hs
      exact Gives.first hK' (.setHolders (hserves s hs).1.2 _ _) (fun _ => .pure (fun s hs => (hserves s hs).1.1)) p s hs
    | plain =>
      simp only [hf,true_imp_iff] at hserves hK'
      exact looseFrom_gives hK' hT hbuilt hloose (fun text => (h text).and (stable_hasItems (hl l) _ _)) (fun s hs => (hserves s hs).2)
    | tuple => exact .throw _
    | stream => exact .throw _
  | _ => exact .throw _

end Nodes

include hw in
theorem firstOf_gives (text : String) : Gives F K (fun v s => s.Tells word v) (firstOf text parent place) :=
  .first hK (.parseWithin _ _ _ _) (fun d =>
    .bind (build_gives hK (fun _ _ _ _ _ hn => (build_honest hn).tells hw) d) (fun _ => .pure (fun _ hs => hs.2)))

end Values

/-- A node of some kind. -/
def Store.HasKind (s : Store) (n : NodeId) (k : Kind) : Prop := ∃ c, s.nodes[n.index]? = some c ∧ c.kind = k

theorem stable_hasKind (n : NodeId) (k : Kind) : Stable F (fun s => s.HasKind n k) := by
  rintro s t ⟨c,hc,hk⟩ hF
  obtain ⟨d,hd,hkeeps⟩ := hF.node hc
  exact ⟨d,hd,hkeeps.kind.trans hk⟩

/-- Where a list of items between commas stands. -/
def commaPlaces : List (Kind × Field) := [
  (.call,.value), (.dict,.value), (.globalStmt,.value), (.importStmt,.value), (.list,.value), (.printStmt,.value),
  (.reprExpr,.value), (.set,.value), (.tuple,.value), (.classDef,.inheritFrom), (.funcDef,.arguments),
  (.lambdaExpr,.arguments), (.fromImport,.targets), (.withStmt,.contexts)]

theorem mem_commaPlaces {k : Kind} {f : Field} (h : k.viewForm f = some .comma) : (k,f) ∈ commaPlaces := by
  unfold Kind.viewForm at h
  split at h
  · cases h
  · split at h
    · cases h
    · split at h <;> first | decide | cases h

theorem commaPlaces_known : ∀ q ∈ commaPlaces, q.1.anyListContext.isSome = true ∨ q.1 = .tuple ∨
    (q.1 = .printStmt ∧ q.2 = .value) ∨ (q.1.listContext q.2).isSome = true := by decide

section Places
variable (hK : Stable F K) (hw : Separating word) {n : NodeId} {k : Kind} {f : Field} (hkind : ∀ s, K s → s.HasKind n k)
  {parent : Value}
include hK hw hkind

theorem childOfText_gives (hctx : k.childContext f = none) (hk : k ≠ .getitem)
    (hf : f ∉ [Field.destination,.finallyBranch,.elseBranch]) (text : String) :
    Gives F K (fun v s => s.Tells word v) (childOfText n text parent (some (.field f))) := by
  unfold childOfText
  refine .ask (fun s c hs hc => ?_)
  obtain ⟨c',hc',rfl⟩ := hkind s hs
  cases (Read.node_ok.mp hc).symm.trans hc'
  dsimp only
  split
  case h_1 | h_2 | h_3 | h_4 | h_5 =>
    rename_i heq
    cases heq
    simp at hf
  case h_6 =>
    rename_i heq _ _ _ _ _
    cases heq
    rw [hctx]
    dsimp only
    rw [if_neg (by simpa using hk)]
    split
    · exact .throw _
    · exact firstOf_gives hK hw _
  case h_7 =>
    rename_i h _ _ _ _ _
    exact absurd rfl (h f)

omit hw in
/-- The text of a list between commas stands for nodes that were built from it. -/
theorem listOfText_gives {Q : ListId → Store → Prop}
    (hlist : ∀ d p s l t, buildList d parent (some (.field f)) p s = .ok l t → Q l t)
    (hempty : ∀ s l, s.HasItems l .nodes [] → Q l s) (hplace : k.viewForm f = some .comma)
    (hfree : ∀ g, g ≠ .type → F.attr n (.field g)) (text : String) :
    Gives F K Q (listOfText n text parent (some (.field f))) := by
  have hctx : ∀ ctx : Context, Gives F K Q (do buildList (← ctx.parse text) parent (some (.field f))) :=
    fun ctx => parsed_gives hK hlist (.parseWithin _ _ _ _)
  unfold listOfText
  refine .ask (fun s c hs hc => ?_)
  obtain ⟨c',hc',rfl⟩ := hkind s hs
  cases (Read.node_ok.mp hc).symm.trans hc'
  have hknown := commaPlaces_known _ (mem_commaPlaces hplace)
  dsimp only
  split
  · exact hctx _
  · next hany =>
    split
    case h_1 => exact tupleOf_gives hK hlist text
    case h_2 | h_3 | h_4 | h_5 =>
      rename_i hk hf
      cases hf
      rw [hk] at hplace
      cases hplace
    case h_6 =>
      refine .ask (fun s v _ _ => .ask (fun s toFile _ _ => ?_))
      have hspacing : ∀ present, Within F (setSpacing n .formatting none present) :=
        fun present => .setSpacing (hfree _ (by decide)) none present
      split
      · exact .first hK (hspacing _) (fun _ => parsed_gives hK hlist (.parseWithin _ _ _ _))
      · refine .first hK (hspacing _) (fun _ => ?_)
        exact .of_within hK (.newLooseList _) (fun _ _ _ _ _ h => hempty _ _ (newLooseList_items h))
    case h_7 =>
      rename_i hf htuple _ _ _ _ hprint
      cases hf
      have hsome : (c.kind.listContext f).isSome = true := by
        rcases hknown with h | h | h | h
        · simp [hany] at h
        · exact absurd h htuple
        · exact absurd h.2 (hprint h.1)
        · exact h
      obtain ⟨ctx,hlist⟩ := Option.isSome_iff_exists.mp hsome
      rw [hlist]
      dsimp only
      have hlambda : Gives F K Q (do
          if c.kind == .lambdaExpr then setSpacing n .firstFormatting none (text != "")
          buildList (← ctx.parse text) parent (some (.field f))) := by
        split
        · exact .first hK (.setSpacing (hfree _ (by decide)) _ _) (fun _ => hctx ctx)
        · exact hctx ctx
      split
      · exact .first hK (.putAttr (hfree _ (by decide)) _) (fun _ => hlambda)
      · exact hlambda
    case h_8 =>
      rename_i hf _
      cases hf
    case h_9 =>
      rename_i hf _
      cases hf

end Places

/-- A view of the list that a node holds under a field. -/
structure Held (s : Store) (w : ViewId) (l : ListId) (n : NodeId) (f : Field) (k : Kind) (form : ViewForm) : Prop where
  view : ∃ c, s.views[w.index]? = some c ∧ c.form = form ∧ c.target = .list l ∧ c.place = some (.field f)
  list : ∃ c, s.lists[l.index]? = some c ∧ c.flavour = .nodes ∧ c.parent = .node n ∧ c.extra.lookup "parent" = none
  kind : s.HasKind n k
  through : k.viewForm f = some form

section Holding
variable {w : ViewId} {l : ListId} {n : NodeId} {f : Field} {k : Kind} {form : ViewForm}

theorem stable_held : Stable F (fun s => Held s w l n f k form) := by
  rintro s t ⟨⟨c,hc,hform,htarget,hplace⟩,⟨d,hd,hflavour,hparent,hextra⟩,hkind,hthrough⟩ hF
  obtain ⟨c',hc',hkeeps⟩ := hF.view hc
  obtain ⟨d',hd',hkeeps'⟩ := hF.list hd
  refine ⟨⟨c',hc',hkeeps.form.trans hform,hkeeps.target.trans htarget,hkeeps.place.trans hplace⟩,
    ⟨d',hd',hkeeps'.flavour.trans hflavour,hkeeps'.parent.trans hparent,hkeeps'.named.trans hextra⟩,?_,hthrough⟩
  exact stable_hasKind n k s t hkind hF

theorem Held.seen {c : ViewCell} (h : Held s w l n f k form) (hc : Read.view w s = .ok c) :
    c.form = form ∧ c.target = .list l ∧ c.place = some (.field f) := by
  obtain ⟨d,hd,h⟩ := h.view
  cases (Read.view_ok.mp hc).symm.trans hd
  exact h

theorem Held.target (h : Held s w l n f k form) : ∃ c, s.views[w.index]? = some c ∧ c.target = .list l ∧ c.form = form := by
  obtain ⟨c,hc,hform,htarget,-⟩ := h.view
  exact ⟨c,hc,htarget,hform⟩

theorem ofWord_parent : Attr.ofWord "parent" = .other "parent" := by decide +kernel

theorem Held.holderAt (h : Held s w l n f k form) (fuel : Nat) : attrAt (fuel + 1) (.list l) "parent" s = .ok (.node n) := by
  obtain ⟨c,hc,hflavour,hparent,hextra⟩ := h.list
  unfold attrAt
  simp only [Read.bind_ok,Read.list_ok]
  refine ⟨c,hc,?_⟩
  rw [if_pos (by rw [hflavour]; rfl)]
  have hnone : listProperties.lookup "parent" = none := by rfl
  rw [hnone,ofWord_parent]
  unfold plainAttr
  simp only [Read.bind_ok,Read.depth_ok,exists_eq_left']
  unfold Store.depth attrWith
  simp only [Read.bind_ok,Read.list_ok]
  refine ⟨c,hc,?_⟩
  rw [if_pos (by rw [hflavour]; rfl)]
  have hown : c.own? (.other "parent") = some (.node n) := by
    unfold ListCell.own?
    simp only [Attr.word,hextra,hparent]
  rw [hown]
  rfl

theorem Held.plain (h : Held s w l n f k form) (hform : form ≠ .document ∧ form ≠ .decorators) {c : ViewCell}
    (hc : s.views[w.index]? = some c) : c.form ≠ .document ∧ c.form ≠ .decorators := by
  obtain ⟨d,hd,rfl,-⟩ := h.view
  cases hc.symm.trans hd
  exact hform

theorem Held.holder (h : Held s w l n f k form) : attr (.list l) "parent" s = .ok (.node n) :=
  (Read.bind_known (a := s.depth) rfl).trans (h.holderAt _)

theorem Held.holder_eq {c : ViewCell} {v : Value} (h : Held s w l n f k form) (htarget : c.target = .list l)
    (hv : listHolder c s = .ok v) : v = .node n := by
  unfold listHolder at hv
  rw [htarget,h.holder] at hv
  exact (Except.ok.inj hv).symm

theorem Store.depth_two {c : ListCell} (h : s.lists[l.index]? = some c) : ∃ D, s.depth = D + 2 := by
  have hlt := Store.lt_lists_of_get h
  exact ⟨s.depth - 2,by unfold Store.depth; omega⟩

theorem Held.attr_parent {c : ViewCell} (h : Held s w l n f k form) (hform : form ≠ .document)
    (hw : s.views[w.index]? = some c) (hbare : c.parent = none ∧ c.extra.lookup "parent" = none) :
    attr (.view w) "parent" s = .ok (.node n) := by
  obtain ⟨c',hc',hcform,htarget,-⟩ := h.view
  cases hw.symm.trans hc'
  obtain ⟨lc,hl,-⟩ := h.list
  obtain ⟨D,hD⟩ := Store.depth_two hl
  have hown : c.own? (.other "parent") = none := by
    rw [ViewCell.own?,show c.extra.lookup (Attr.word (.other "parent")) = none from hbare.2]
    exact hbare.1
  unfold attr
  rw [Read.bind_known (a := s.depth) rfl,hD,attrAt,Read.view_known hw]
  rw [if_neg (by rw [hcform]; simpa using hform),ofWord_parent]
  dsimp only
  rw [hown,htarget]
  exact h.holderAt D

/-- If each value becomes an item of some sort, all items are of that sort. -/
theorem itemsFromEach_each {P : Store → Value → Prop} (hP : ∀ x, Stable F (fun s => P s x))
    (hitem : ∀ v ∈ vs, Gives F K (fun x s => P s x) (itemFrom w v)) :
    Gives F K (fun xs s => ∀ x ∈ xs, P s x) (itemsFromEach w vs) := by
  induction vs with
  | nil => exact .pure (by simp)
  | cons v vs ih =>
    have hrest := ih (List.forall_mem_cons.mp hitem).2
    refine .bind (hitem v List.mem_cons_self) (fun x => .bind (hrest.and (hP x)) (fun xs => .pure ?_))
    rintro s ⟨⟨-,hx⟩,hxs⟩ y hy
    rcases List.mem_cons.mp hy with rfl | hy
    · exact hx
    · exact hxs y hy

/-- The item that a value becomes in a list that is neither the document nor a dotted name. -/
def listedItem (c : ViewCell) (v : Value) : Edit Value := do
  let found ← significant (← listFor (← listHolder c) v c.target c.place)
  match found with
  | first :: _ => return first
  | [] => throw .outOfRange

variable (hK : Stable F K) (hw : Separating word) (ht : F.KeepsTypes) (hl : ∀ l, ¬ F.list l)
  (hheld : ∀ s, K s → Held s w l n f k form)
  (hchild : ∀ text, Gives F K (fun v s => s.Tells word v) (childOfText n text (.list l) (some (.field f))))
  (hlist : ∀ text, Gives F K (fun l s => s.Tellers word l) (listOfText n text (.list l) (some (.field f))))
  (hform : form ≠ .document ∧ form ≠ .dotted)
include hK hw ht hl hheld hchild hlist hform

theorem itemFrom_gives (hv : ∀ s, K s → s.Sound word v) : Gives F K (fun x s => s.Item word x) (itemFrom w v) := by
  unfold itemFrom
  refine .ask (fun s c hs hc => ?_)
  obtain ⟨hcform,htarget,hplace⟩ := (hheld s hs).seen hc
  have hconvert : Gives F K (fun x s => s.Item word x) (listedItem c v) := by
    refine .ask (fun s holder hs hholder => ?_)
    obtain rfl := (hheld s hs).holder_eq htarget hholder
    rw [htarget,hplace]
    have hfrom := listFrom_gives (Q := fun s v => s.Parts word v) hK (stable_tells ht word) hl
      (fun _ _ _ _ _ hn => (build_honest hn).tells hw)
      (fun s l xs hitems hxs => parts_underlying (underlying_list l s) (hitems.tellers hxs)) hchild
      (fun text => (hlist text).weaken (fun l s _ h => parts_underlying (underlying_list l s) h))
      (fun s hs => (hv s hs).serves)
    refine .bind hfrom (fun v => .learn (R := fun xs s => ∀ x ∈ xs, s.Item word x) (fun xs s hs hxs => hs.2 xs hxs) ?_)
    intro xs
    cases xs with
    | nil => exact .throw _
    | cons x xs => exact .pure (fun s hs => hs.2 x List.mem_cons_self)
  cases hcf : c.form with
  | document => exact absurd (hcform.symm.trans hcf) hform.1
  | dotted => exact absurd (hcform.symm.trans hcf) hform.2
  | _ => exact hconvert

theorem itemsFromEach_gives (hvs : ∀ s, K s → ∀ v ∈ vs, s.Sound word v) :
    Gives F K (fun xs s => ∀ x ∈ xs, s.Item word x) (itemsFromEach w vs) :=
  itemsFromEach_each (fun _ _ _ hs hF => hs.frame hF ht)
    (fun v hv => itemFrom_gives hK hw ht hl hheld hchild hlist hform (fun s hs => hvs s hs v hv))

end Holding

theorem listFor_node {receiver parent : Value} {place : Option Attr}
    (h : listFor receiver (.node m) parent place p s = .ok x t) : ∃ l, x = .list l ∧ t.HasItems l .nodes [.node m] := by
  have hfrom : ∀ {ofText listOfText parent place s}, listFrom ofText listOfText (.node m) parent place p s = .ok x t →
      ∃ l, x = .list l ∧ t.HasItems l .nodes [.node m] := by
    intro ofText listOfText parent place s h
    simp only [listFrom,Edit.bind_ok,Edit.pure_ok] at h
    obtain ⟨_,u,-,l,_,hl,rfl,rfl⟩ := h
    exact ⟨l,rfl,newLooseList_items hl⟩
  unfold listFor at h
  cases receiver with
  | node n => exact hfrom h
  | list l =>
    obtain ⟨_,_,-,h⟩ := Edit.bind_ok.mp h
    split at h
    · exact hfrom h
    · exact absurd h Edit.throw_ok
  | view w =>
    obtain ⟨_,_,-,h⟩ := Edit.bind_ok.mp h
    split at h
    · exact hfrom h
    · exact absurd h Edit.throw_ok
  | _ => exact absurd h Edit.throw_ok

theorem itemFrom_node {w : ViewId} (h : itemFrom w (.node m) p s = .ok x t) : x = .node m := by
  unfold itemFrom at h
  obtain ⟨c,_,hc,h⟩ := Edit.bind_ok.mp h
  have hconvert : ∀ {s}, listedItem c (.node m) p s = .ok x t → x = .node m := by
    intro s h
    simp only [listedItem,Edit.bind_ok,Edit.read_ok] at h
    obtain ⟨_,_,⟨-,rfl⟩,v,_,hv,found,_,⟨hfound,rfl⟩,h⟩ := h
    obtain ⟨l,rfl,d,hd,-,hitems⟩ := listFor_node hv
    obtain ⟨d',hd',hfound⟩ := significant_ok (underlying_list l _) hfound
    rw [hd] at hd'
    cases hd'
    rw [hitems] at hfound
    cases found with
    | nil => exact absurd h Edit.throw_ok
    | cons y rest =>
      obtain ⟨rfl,-⟩ := Edit.pure_ok.mp h
      exact List.mem_singleton.mp (withoutSeparators_mem hfound y List.mem_cons_self).1
  cases hf : c.form with
  | document =>
    rw [hf] at h
    simp only [plainNodeFrom,nodeFrom,Edit.bind_ok,Edit.pure_ok] at h
    obtain ⟨_,_,-,rfl,-⟩ := h
    rfl
  | dotted =>
    rw [hf] at h
    simp only [Edit.bind_ok] at h
    obtain ⟨_,_,-,_,_,h,-⟩ := h
    exact absurd h Edit.throw_ok
  | _ =>
    rw [hf] at h
    exact hconvert h

end CodeTree
