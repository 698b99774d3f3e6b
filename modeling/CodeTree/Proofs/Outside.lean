import CodeTree.Proofs.Blocks
import CodeTree.Proofs.LineShifts

/-! # Nodes from outside

What is put into a list is made anew or comes from outside of all that a store had before. Making it leaves every cell
that was there as it was, but for the items that views show. The lines that a text describes for a block are moved
after they were built: reading them stays inside the new trees, so only line ends of these trees are changed.
-/
namespace CodeTree
variable {α β : Type} {o t u : Store} {p : Parser} {w : ViewId} {D : List Value} {vs : List Value} {d : NodeCell}
  {n : NodeId} {r : Unit} {v : Value} {c : ViewCell}

/-- An edit that sends stores with one property to stores with another. Where it fails, too, it leaves the cells of a store as
they were, but for the items that views show. -/
def Edit.Sends (o : Store) (K K' : Store → Prop) (e : Edit α) : Prop :=
  e.Meets K (fun s t => o.Carries s → o.Carries t) (fun _ => K')

namespace Edit.Sends
variable {K M K' : Store → Prop} {e : Edit α} {s : Store}

theorem ok {a : α} (h : e.Sends o K K') (hs : K s) (he : e p s = .ok a t) : K' t := (Edit.Meets.frame_ok h hs he).2

theorem error {fault : Fault} (h : e.Sends o K K') (hs : K s) (hc : o.Carries s) (he : e p s = .error fault t) : o.Carries t :=
  Edit.Meets.frame_error h hs he hc

theorem of_run (hK : ∀ s, K' s → o.Carries s) (hok : ∀ {p s a t}, K s → e p s = .ok a t → K' t)
    (herror : ∀ {p s fault t}, K s → e p s = .error fault t → o.Carries s → o.Carries t) : e.Sends o K K' := by
  intro p s hs
  split
  · next a t he => exact ⟨fun _ => hK t (hok hs he),hok hs he⟩
  · next fault t he => exact herror hs he

theorem pure {a : α} (h : ∀ s, K s → K' s) : Edit.Sends o K K' (Pure.pure a : Edit α) :=
  Edit.Meets.pure (fun _ h => h) h

theorem throw {fault : Fault} : Edit.Sends o K K' (MonadExcept.throw fault : Edit α) :=
  Edit.Meets.throw (fun _ h => h)

theorem bind {x : Edit α} {f : α → Edit β} (hx : x.Sends o K M) (hf : ∀ a, (f a).Sends o M K') : (x >>= f).Sends o K K' :=
  Edit.Meets.bind (fun _ _ _ h h' hc => h' (h hc)) hx hf

theorem read {r : Read α} : Edit.Sends o K K (liftM r : Edit α) :=
  Edit.Meets.read (fun _ h => h) (fun _ _ hs _ => hs)

theorem ask {r : Read α} {f : α → Edit β} (hf : ∀ s a, K s → r s = .ok a → (f a).Sends o K K') :
    Edit.Sends o K K' (do f (← r) : Edit β) := Edit.Meets.ask (fun _ h => h) hf

theorem known {r : Read α} {f : α → Edit β} (hf : ∀ a, (f a).Sends o (fun s => K s ∧ r s = .ok a) K') :
    Edit.Sends o K K' (do f (← r) : Edit β) := by
  intro p s hs
  cases hr : r s with
  | ok a =>
    rw [Edit.read_known hr]
    exact hf a p s ⟨hs,hr⟩
  | error fault =>
    rw [Edit.read_failed hr]
    exact fun hc => hc

theorem ite {b : Prop} [Decidable b] {x y : Edit α} (hx : x.Sends o K K') (hy : y.Sends o K K') :
    (if b then x else y).Sends o K K' := by
  split
  · exact hx
  · exact hy

theorem mono {e : Edit α} (h : e.Sends o M K') (hKM : ∀ s, K s → M s) : e.Sends o K K' :=
  Edit.Meets.weaken h hKM (fun _ _ h => h)

end Edit.Sends

/-- The cells of a store are still there as they were, but for the items that views show; one view shows these. -/
structure Store.Spared (o : Store) (w : ViewId) (D : List Value) (s : Store) : Prop where
  carries : o.Carries s
  shown : s.ShowsItems w D

/-- An edit that spares the cells of a store and what a view shows. -/
abbrev Spares (o : Store) (w : ViewId) (D : List Value) (e : Edit α) : Prop := e.Sends o (o.Spared w D) (o.Spared w D)

/-- A node that came after all those of a store, or no part of any store. -/
def Value.Outside (o : Store) : Value → Prop
  | .node n => o.nodes.size ≤ n.index
  | .list _ | .view _ => False
  | _ => True

theorem Store.Spared.grows (h : o.Spared w D t) (hgrows : t.Grows u) : o.Spared w D u := by
  obtain ⟨c,hc,hitems⟩ := h.shown
  exact ⟨h.carries.trans hgrows.carries,c,(hgrows.views _ (Store.lt_views_of_get hc)).trans hc,hitems⟩

theorem Store.Spared.show (h : o.Spared w D t) (f : List Value → List Value) :
    o.Spared w (f D) (t.mapView w (fun c => { c with items := f c.items })) := by
  obtain ⟨c,hc,rfl⟩ := h.shown
  refine ⟨h.carries.showing w _,{ c with items := f c.items },?_,rfl⟩
  rw [Store.mapView_get,if_pos rfl,hc]
  rfl

namespace Spares

theorem of_adds {e : Edit α} (h : Adds e) : Spares o w D e :=
  .of_run (fun _ => Store.Spared.carries) (fun hs he => hs.grows (h.grows he)) (fun _ he hc => hc.trans (h.grows_error he).carries)

theorem parseWithin (before text after : String) (keys : List Key) : Spares o w D (parseWithin before text after keys) :=
  of_adds (.bind (.parse _) (fun _ => .lift _))

theorem updateNode (hn : o.nodes.size ≤ n.index) (f : NodeCell → NodeCell) : Spares o w D (Edit.updateNode n f) := by
  refine .of_run (fun _ => Store.Spared.carries) (fun hs he => ?_) (fun _ he => by cases he)
  rw [Edit.updateNode_ok.mp he]
  exact ⟨hs.carries.mapNode hn f,hs.shown⟩

theorem setHolder (hv : v.Outside o) (parent : Value) (place : Option Attr) : Spares o w D (setHolder v parent place) := by
  unfold CodeTree.setHolder
  cases v with
  | node n => exact updateNode hv _
  | list l => exact hv.elim
  | view w => exact hv.elim
  | _ => exact .throw

theorem setHolders (hvs : ∀ v ∈ vs, v.Outside o) (parent : Value) (place : Option Attr) :
    Spares o w D (setHolders parent place vs) := by
  induction vs with
  | nil => exact .pure (fun _ h => h)
  | cons v vs ih =>
    exact .bind (setHolder (hvs v List.mem_cons_self) _ _) (fun _ => ih (List.forall_mem_cons.mp hvs).2)

theorem setIndent (hv : v.Outside o) (indent : Value) : Spares o w D (setIndent v indent) := by
  unfold CodeTree.setIndent
  cases v with
  | node n =>
    refine .bind .read (fun c => ?_)
    split
    · exact .bind .read (fun _ => updateNode hv _)
    · exact updateNode hv _
  | list l => exact hv.elim
  | view w => exact hv.elim
  | _ => exact .throw

end Spares

section Shifting
variable {s : Store} {shift : Shift} {v : Value} {inside : List Value}

theorem Store.Sprung.outside (h : o.Sprung s v) : v.Outside o := by
  obtain ⟨n,i,rfl,-,hn⟩ := h
  exact hn.le

theorem shiftLines_reindents (hinside : ∀ v ∈ inside, o.Sprung s v) :
    (shiftLines shift inside).Ends p s (fun _ t => o.Reindents s t) (fun t => o.Reindents s t) := by
  obtain ⟨ms,rfl⟩ : ∃ ms : List NodeId, inside = ms.map .node := by
    induction inside with
    | nil => exact ⟨[],rfl⟩
    | cons v inside ih =>
      obtain ⟨n,_,rfl,-⟩ := hinside v List.mem_cons_self
      obtain ⟨ms,rfl⟩ := ih (List.forall_mem_cons.mp hinside).2
      exact ⟨n :: ms,rfl⟩
  have hnone : ∀ x ∈ (none : Option NodeId), o.Sprung s (.node x) := by simp
  exact shiftItems_reindents hnone (fun m hm => hinside _ (List.mem_map_of_mem hm))

end Shifting

section Building
variable {s : Store} {l : ListId} {d : Datum} {parent : Value} {place : Attr}

/-- A list that came after all those of a store, with items from outside. -/
structure Store.Loaded (o s : Store) (l : ListId) : Prop where
  le : o.lists.size ≤ l.index
  items : ∃ c, s.lists[l.index]? = some c ∧ ∀ x ∈ c.items, x.Outside o

theorem buildList_adds (d : Datum) (parent : Value) (place : Option Attr) : Adds (buildList d parent place) :=
  .bind (buildItems_adds d parent place) (fun _ => .newList _)

theorem buildList_row (hs : o.Carries s) (h : buildList d parent (some place) p s = .ok l t) :
    o.lists.size ≤ l.index ∧ ∃ ms : List NodeId, t.lists[l.index]? = some ⟨.nodes,ms.map .node,parent,some place,[]⟩ ∧
      t.Siblings (t.TreeFrom o.nodes.size t.nodes.size) parent place ms := by
  obtain ⟨hle,vs,ds,b,hl,hrow,hb,-⟩ := buildList_kept h
  have hheight : b.nodes ≤ s.mark.nodes + t.nodes.size := hb ▸ Nat.le_add_left _ _
  obtain ⟨ms,rfl,hms,-⟩ := hrow.siblings (fun d _ => built_tree d) hs.nodes_le hheight
  exact ⟨Nat.le_trans hs.lists_le hle,ms,hl,hms⟩

theorem buildList_sprung (hs : o.Carries s) (h : buildList d parent (some place) p s = .ok l t) :
    o.lists.size ≤ l.index ∧ ∃ c, t.lists[l.index]? = some c ∧ ∀ x ∈ c.items, o.Sprung t x := by
  obtain ⟨hle,ms,hl,hms⟩ := buildList_row hs h
  refine ⟨hle,_,hl,fun x hx => ?_⟩
  obtain ⟨m,hm,rfl⟩ := List.mem_map.mp hx
  refine ⟨m,_,rfl,?_,hms.each m hm⟩
  unfold Store.depth
  omega

theorem addLineEnds_loaded (k : Nat) : (addLineEnds l k).Sends o (fun s => o.Spared w D s ∧ o.Loaded s l)
    (fun s => o.Spared w D s ∧ o.Loaded s l) := by
  induction k with
  | zero => exact .pure (fun _ h => h)
  | succ k ih =>
    have hbuild : (build (lineEnd "") .none none).Meets (fun s => o.Spared w D s ∧ o.Loaded s l)
        (fun s t => o.Carries s → o.Carries t) (fun n s => (o.Spared w D s ∧ o.Loaded s l) ∧ o.nodes.size ≤ n.index) := by
      rintro p s ⟨hs,hle,c,hc,hitems⟩
      split
      · next n t h =>
        have hgrows := (build_adds _ _ _).grows h
        refine ⟨fun _ => (hs.grows hgrows).carries,⟨hs.grows hgrows,hle,c,hgrows.carries.list hc,hitems⟩,?_⟩
        exact Nat.le_trans hs.carries.nodes_le (Nat.le_of_eq (Kept.of_run h).index.symm)
      · next h => exact fun hc => hc.trans ((build_adds _ _ _).grows_error h).carries
    refine Edit.Meets.bind (fun _ _ _ h h' hc => h' (h hc)) hbuild (fun n => Edit.Sends.bind ?_ (fun _ => ih))
    refine .of_run (fun _ hs => hs.1.carries) (fun hs he => ?_) (fun _ he => by cases he)
    obtain ⟨⟨hs,hle,c,hc,hitems⟩,hn⟩ := hs
    obtain rfl := Edit.updateList_ok.mp he
    refine ⟨⟨hs.carries.mapList hle _,hs.shown⟩,hle,{ c with items := c.items ++ [.node n] },?_,fun x hx => ?_⟩
    · rw [Store.mapList_get,if_pos rfl,hc]
      rfl
    · rcases List.mem_append.mp hx with hx | hx
      · exact hitems x hx
      · rw [List.mem_singleton.mp hx]
        exact hn

/-- A list that is built is new, and so are the trees in it. -/
theorem buildList_loads (d : Datum) : (buildList d parent (some place)).Meets (o.Spared w D) (fun s t => o.Carries s → o.Carries t)
    (fun l s => (o.Spared w D s ∧ o.Loaded s l) ∧ ∀ c, s.lists[l.index]? = some c → ∀ v ∈ c.items, o.Sprung s v) := by
  intro p s hs
  split
  · next l u h =>
    have hgrows := (buildList_adds _ _ _).grows h
    obtain ⟨hle,c,hc,hsprung⟩ := buildList_sprung hs.carries h
    refine ⟨fun hs => hs.trans hgrows.carries,⟨hs.grows hgrows,hle,c,hc,fun x hx => (hsprung x hx).outside⟩,fun c' hc' => ?_⟩
    cases hc.symm.trans hc'
    exact hsprung
  · next h => exact fun hs => hs.trans ((buildList_adds _ _ _).grows_error h).carries

/-- The lines that a text describes for a block are made anew, and then only these are changed. -/
theorem blockOf_spares (n : NodeId) (text : String) : Spares o w D (blockOf n text parent (some place)) := by
  have hworks : ∀ l inside, Reworks l inside
      (Edit.Sends o (fun s => (o.Spared w D s ∧ o.Loaded s l) ∧ ∀ v ∈ inside, o.Sprung s v) (o.Spared w D))
      (Edit.Sends o (fun s => o.Spared w D s ∧ o.Loaded s l) (o.Spared w D)) := by
    intro l inside
    refine ⟨fun h => .ask (fun _ a _ _ => h a),fun h => .ask (fun _ a _ _ => h a),fun _ => .throw,
      fun h => h.mono (fun _ hs => hs.1),fun shift _ h => .bind ?_ (fun _ => h),fun k _ h => .bind (addLineEnds_loaded k) (fun _ => h),
      fun indent => .ask (fun s c hs hc => ?_),.pure (fun _ h => h.1)⟩
    · refine .of_run (fun _ hs => hs.1.carries) (fun hs he => ?_) (fun hs he => ((shiftLines_reindents hs.2).error he).carries)
      obtain ⟨⟨hs,hle,hitems⟩,hinside⟩ := hs
      have hre := (shiftLines_reindents hinside).ok he
      refine ⟨⟨hre.carries hs.carries,?_⟩,hle,hre.lists ▸ hitems⟩
      unfold Store.ShowsItems
      rw [hre.views]
      exact hs.shown
    · obtain ⟨c',hc',hitems⟩ := hs.2.items
      cases (Read.list_ok.mp hc).symm.trans hc'
      split
      · next last hlast =>
        have hset : Spares o w D (setIndent last indent) := Spares.setIndent (hitems last (List.mem_of_getLast? hlast)) indent
        exact .bind (hset.mono (fun _ hs => hs.1)) (fun _ => .pure (fun _ h => h))
      · exact .bind (M := o.Spared w D) .throw (fun _ => .pure (fun _ h => h))
  refine blockOf_reworks hworks (fun r f h => .ask (fun _ a _ _ => h a))
    (fun _ _ _ _ f h => .bind (Spares.parseWithin _ _ _ _) h) (fun d rest hrest => ?_)
  refine Edit.Meets.bind (fun _ _ _ h h' hc => h' (h hc)) (buildList_loads d) (fun l => Edit.Sends.known (fun c => ?_))
  exact (hrest l c).mono (fun _ hs => ⟨hs.1.1,hs.1.2 c (Read.list_ok.mp hs.2)⟩)

theorem indentLineEnds_spares {indent : Value} (hvs : ∀ v ∈ vs, v.Outside o) : Spares o w D (indentLineEnds indent vs) := by
  induction vs with
  | nil => exact .pure (fun _ h => h)
  | cons v vs ih =>
    have hrest := ih (List.forall_mem_cons.mp hvs).2
    unfold indentLineEnds
    refine .bind .read (fun isEnd => ?_)
    split
    · exact .bind (Spares.setIndent (hvs v List.mem_cons_self) indent) (fun _ => hrest)
    · exact hrest

theorem decoratorsOf_spares (v : Value) (text : String) : Spares o w D (decoratorsOf v text parent (some place)) := by
  unfold decoratorsOf
  refine .bind .read (fun indent => .bind (Spares.parseWithin _ _ _ _) (fun d => ?_))
  split
  · exact .throw
  · refine Edit.Meets.bind (fun _ _ _ h h' hc => h' (h hc)) (buildList_loads _) (fun l => Edit.Sends.bind .read (fun filled => ?_))
    refine Edit.Sends.mono (M := fun s => o.Spared w D s ∧ o.Loaded s l) ?_ (fun _ hs => hs.1)
    have hdone : Edit.Sends o (fun s => o.Spared w D s ∧ o.Loaded s l) (o.Spared w D) (pure l) := .pure (fun _ hs => hs.1)
    split
    · refine .ask (fun s c hs hc => ?_)
      obtain ⟨c',hc',hitems⟩ := hs.2.items
      cases (Read.list_ok.mp hc).symm.trans hc'
      have hends : Spares o w D (indentLineEnds indent (c.items.drop 1).dropLast) :=
        indentLineEnds_spares (fun x hx => hitems x (List.mem_of_mem_drop (List.dropLast_subset _ hx)))
      exact .bind (hends.mono (fun _ hs => hs.1)) (fun _ => .pure (fun _ hs => hs))
    · exact hdone
  · exact .throw

end Building

section Converting
variable {s : Store} {l : ListId} {n : NodeId} {k : Kind} {f : Field} {form : ViewForm} {v parent : Value}
  {vs : List Value} {place : Option Attr}

theorem firstOf_spares (text : String) (parent : Value) (place : Option Attr) : Spares o w D (firstOf text parent place) :=
  .bind (Spares.parseWithin _ _ _ _) (fun d => .bind (Spares.of_adds (build_adds d _ _)) (fun _ => .pure (fun _ h => h)))

theorem allOf_spares (text : String) (parent : Value) (place : Option Attr) : Spares o w D (allOf text parent place) :=
  .bind (Spares.of_adds (.parse _)) (fun d => Spares.of_adds (buildList_adds d _ _))

/-- A value to put in: no part of a store, a node from outside, or a list or view of such values. -/
def Store.Offers (o s : Store) : Value → Prop
  | .list l => ∀ c, s.lists[l.index]? = some c → ∀ x ∈ c.items, x.Outside o
  | .view w => ∀ c, s.views[w.index]? = some c → ∀ x ∈ c.items, x.Outside o
  | v => v.Outside o

theorem Value.Outside.offers (h : v.Outside o) (s : Store) : o.Offers s v := by
  cases v with
  | list l => exact h.elim
  | view w => exact h.elim
  | _ => exact h

section Values
variable {ofText : String → Value → Option Attr → Edit Value} {listOfText : String → Value → Option Attr → Edit ListId}
  (htext : ∀ text, Spares o w D (ofText text parent place))
include htext

theorem nodeFrom_spares (hv : v.Outside o) : Spares o w D (nodeFrom ofText v parent place) := by
  unfold nodeFrom
  cases v with
  | text x => exact htext x
  | node n => exact .bind (Spares.setHolder hv _ _) (fun _ => .pure (fun _ h => h))
  | data d =>
    cases d with
    | record fields => exact .bind (Spares.of_adds (build_adds _ _ _)) (fun _ => .pure (fun _ h => h))
    | _ => exact .throw
  | _ => exact .throw

theorem nodesFrom_spares (hvs : ∀ v ∈ vs, v.Outside o) : Spares o w D (nodesFrom ofText parent place vs) := by
  induction vs with
  | nil => exact .pure (fun _ h => h)
  | cons v vs ih =>
    exact .bind (nodeFrom_spares htext (hvs v List.mem_cons_self)) (fun _ =>
      .bind (ih (List.forall_mem_cons.mp hvs).2) (fun _ => .pure (fun _ h => h)))

theorem listFrom_spares (hlist : ∀ text, Spares o w D (listOfText text parent place)) {r : Value} (hs : o.Spared w D s)
    (hv : o.Offers s v) (h : listFrom ofText listOfText v parent place p s = .ok r t) : o.Spared w D t := by
  have hloose : ∀ xs, Spares o w D (newLooseList xs) := fun xs => Spares.of_adds (.newList _)
  have hmade : ∀ {e : Edit (List Value)}, Spares o w D e → Spares o w D (do return .list (← newLooseList (← e)) : Edit Value) :=
    fun he => .bind he (fun xs => .bind (hloose xs) (fun _ => .pure (fun _ h => h)))
  have hdata : ∀ ds : List Datum, ∀ x ∈ ds.map Value.ofDatum, x.Outside o := by
    intro ds x hx
    obtain ⟨d,-,rfl⟩ := List.mem_map.mp hx
    cases d <;> trivial
  unfold listFrom at h
  cases v with
  | text x => exact (Edit.Sends.bind (hlist x) (fun _ => .pure (fun _ h => h))).ok hs h
  | node n =>
    have hn : Value.Outside o (.node n) := hv
    exact (Edit.Sends.bind (Spares.setHolder hn _ _) (fun _ => .bind (hloose _) (fun _ => .pure (fun _ h => h)))).ok hs h
  | data d =>
    cases d with
    | record fields =>
      exact (Edit.Sends.bind (Spares.of_adds (build_adds _ _ _)) (fun _ => .bind (hloose _) (fun _ => .pure (fun _ h => h)))).ok
        hs h
    | list ds => exact (hmade (nodesFrom_spares htext (hdata ds))).ok hs h
    | _ => exact absurd h Edit.throw_ok
  | keys ks =>
    refine (hmade (nodesFrom_spares htext (fun x hx => ?_))).ok hs h
    obtain ⟨key,-,rfl⟩ := List.mem_map.mp hx
    cases key <;> trivial
  | view w =>
    obtain ⟨c,hc,h⟩ := Edit.ask_ok.mp h
    exact (Edit.Sends.bind (Spares.setHolders (hv c (Read.view_ok.mp hc)) _ _) (fun _ => .pure (fun _ h => h))).ok hs h
  | list l =>
    obtain ⟨c,hc,h⟩ := Edit.ask_ok.mp h
    have hitems := hv c (Read.list_ok.mp hc)
    cases hflavour : c.flavour with
    | nodes =>
      rw [hflavour] at h
      exact (Edit.Sends.bind (Spares.setHolders hitems _ _) (fun _ => .pure (fun _ h => h))).ok hs h
    | plain =>
      rw [hflavour] at h
      exact (hmade (nodesFrom_spares htext hitems)).ok hs h
    | _ =>
      rw [hflavour] at h
      exact absurd h Edit.throw_ok
  | _ => exact absurd h Edit.throw_ok

end Values

/-- A view of the lines of a document, of a block or of decorators, with the list behind it. -/
inductive Store.LineList (s : Store) (w : ViewId) (l : ListId) : ViewForm → Prop where
  | document {c : ViewCell} (view : s.views[w.index]? = some c) (form : c.form = .document) (target : c.target = .list l) :
    Store.LineList s w l .document
  | field {n : NodeId} {f : Field} {k : Kind} {form : ViewForm} (held : Held s w l n f k form)
    (lines : form = .lines ∨ form = .decorators) : Store.LineList s w l form

theorem Held.carries (h : Held o w l n f k form) (hs : o.Carries s) : Held s w l n f k form := by
  obtain ⟨⟨c,hc,hview⟩,⟨d,hd,hlist⟩,⟨e,he,hkind⟩,hthrough⟩ := h
  obtain ⟨shown,hc'⟩ := hs.view hc
  exact ⟨⟨_,hc',hview⟩,⟨d,hs.list hd,hlist⟩,⟨e,hs.node he,hkind⟩,hthrough⟩

theorem Kind.viewForm_lines (h : k.viewForm f = some form) (hform : form = .lines ∨ form = .decorators) :
    k.hasBlock = true ∧ (f = .value ∨ f = .decorators) := by
  unfold Kind.viewForm at h
  split at h
  · next hblock =>
    simp only [Bool.and_eq_true,beq_iff_eq] at hblock
    exact ⟨hblock.1,.inl hblock.2⟩
  · split at h
    · next hblock =>
      simp only [Bool.and_eq_true,beq_iff_eq] at hblock
      exact ⟨hblock.1,.inr hblock.2⟩
    · split at h <;> cases h <;> rcases hform with hform | hform <;> cases hform

section Holding
variable (hheld : Held o w l n f k form) (hform : form = .lines ∨ form = .decorators)
include hheld hform

theorem childOfText_spares (text : String) (parent : Value) : Spares o w D (childOfText n text parent (some (.field f))) := by
  unfold childOfText
  refine .ask (fun s c hs hc => ?_)
  obtain ⟨c',hc',hck⟩ := (hheld.carries hs.carries).kind
  cases (Read.node_ok.mp hc).symm.trans hc'
  rw [hck]
  obtain ⟨hblock,rfl | rfl⟩ := Kind.viewForm_lines hheld.through hform <;> cases k <;>
    first | exact firstOf_spares _ _ _ | exact .throw | cases hblock

theorem listOfText_spares (text : String) (parent : Value) : Spares o w D (listOfText n text parent (some (.field f))) := by
  unfold listOfText
  refine .ask (fun s c hs hc => ?_)
  obtain ⟨c',hc',hck⟩ := (hheld.carries hs.carries).kind
  cases (Read.node_ok.mp hc).symm.trans hc'
  rw [hck]
  obtain ⟨hblock,hf⟩ := Kind.viewForm_lines hheld.through hform
  have hother : Spares o w D (if k.hasBlock = true then
      if (f == .value) = true then blockOf n text parent (some (.field f))
      else if f.word.endsWith "_formatting" = true then allOf text parent (some (.field f))
      else throw (.refused .unhandled)
    else do
      Edit.lift k.otherLists
      allOf text parent (some (.field f))) :=
    .ite (.ite (blockOf_spares _ _) (.ite (allOf_spares _ _ _) .throw))
      (.bind (Spares.of_adds (.lift _)) (fun _ => allOf_spares _ _ _))
  rcases hf with rfl | rfl
  · cases k <;> first | exact absurd hblock (by decide) | exact hother
  · cases k with
    | classDef | funcDef => exact decoratorsOf_spares _ _
    | _ => first | exact absurd hblock (by decide) | exact hother

theorem listFor_spares {r holder : Value} (hs : o.Spared w D s) (hv : o.Offers s v) (hc : s.views[w.index]? = some c)
    (hholder : listHolder c s = .ok holder) (h : listFor holder v c.target c.place p s = .ok r t) : o.Spared w D t := by
  have hheld' := hheld.carries hs.carries
  obtain ⟨-,htarget,hplace⟩ := hheld'.seen (Read.view_ok.mpr hc)
  cases hheld'.holder_eq htarget hholder
  rw [hplace] at h
  exact listFrom_spares (fun text => childOfText_spares hheld hform text _) (fun text => listOfText_spares hheld hform text _)
    hs hv h

end Holding

section Items
variable (hlist : o.LineList w l form)
include hlist

theorem Store.LineList.form_eq (hs : o.Carries s) (hc : s.views[w.index]? = some c) : c.form = form := by
  cases hlist with
  | document view hform =>
    obtain ⟨shown,hc'⟩ := hs.view view
    cases hc.symm.trans hc'
    exact hform
  | field held =>
    obtain ⟨c',hc',hform,-⟩ := (held.carries hs).view
    cases hc.symm.trans hc'
    exact hform

theorem itemFrom_spares {r : Value} (hs : o.Spared w D s) (hv : o.Offers s v) (h : itemFrom w v p s = .ok r t) :
    o.Spared w D t := by
  unfold itemFrom at h
  obtain ⟨c,hc,h⟩ := Edit.ask_ok.mp h
  have hc := Read.view_ok.mp hc
  rw [hlist.form_eq hs.carries hc] at h
  cases hlist with
  | document =>
    have hout : v.Outside o ∨ ∃ fault, plainNodeFrom v (.view w) (some .root) = throw fault := by
      cases v with
      | list l => exact .inr ⟨_,rfl⟩
      | view w' => exact .inr ⟨_,rfl⟩
      | _ => exact .inl hv
    rcases hout with hout | ⟨fault,hfault⟩
    · exact (nodeFrom_spares (fun text => firstOf_spares text _ _) hout).ok hs h
    · have h : plainNodeFrom v (.view w) (some .root) p s = .ok r t := h
      rw [hfault] at h
      exact absurd h Edit.throw_ok
  | field held hlines =>
    have h : listedItem c v p s = .ok r t := by
      rcases hlines with rfl | rfl <;> exact h
    obtain ⟨holder,hholder,h⟩ := Edit.ask_ok.mp h
    obtain ⟨x,u,hx,h⟩ := Edit.bind_ok.mp h
    have hu := listFor_spares held hlines hs hv hc hholder hx
    obtain ⟨found,-,h⟩ := Edit.ask_ok.mp h
    split at h
    · obtain ⟨-,rfl⟩ := Edit.pure_ok.mp h
      exact hu
    · exact absurd h Edit.throw_ok

theorem itemsFromEach_spares {xs : List Value} (hvs : ∀ v ∈ vs, v.Outside o) (hs : o.Spared w D s)
    (h : itemsFromEach w vs p s = .ok xs t) : o.Spared w D t := by
  induction vs generalizing s xs with
  | nil =>
    obtain ⟨-,rfl⟩ := Edit.pure_ok.mp h
    exact hs
  | cons v vs ih =>
    obtain ⟨x,u,hx,h⟩ := Edit.bind_ok.mp h
    obtain ⟨ys,u',hys,h⟩ := Edit.bind_ok.mp h
    obtain ⟨-,rfl⟩ := Edit.pure_ok.mp h
    exact ih (List.forall_mem_cons.mp hvs).2 (itemFrom_spares hlist hs ((hvs v List.mem_cons_self).offers s) hx) hys

theorem itemsFrom_spares {xs : List Value} (hs : o.Spared w D s) (hv : o.Offers s v)
    (hitems : ∀ vs, items v s = .ok vs → ∀ x ∈ vs, x.Outside o) (h : itemsFrom w v p s = .ok xs t) : o.Spared w D t := by
  unfold itemsFrom at h
  obtain ⟨c,hc,h⟩ := Edit.ask_ok.mp h
  have hc := Read.view_ok.mp hc
  have hform := hlist.form_eq hs.carries hc
  have heach : (do itemsFromEach w (← items v) : Edit (List Value)) p s = .ok xs t → o.Spared w D t := by
    intro h
    obtain ⟨vs,hvs,h⟩ := Edit.ask_ok.mp h
    exact itemsFromEach_spares hlist (hitems vs hvs) hs h
  rw [hform] at h
  cases hlist with
  | document =>
    obtain ⟨x,u,hx,h⟩ := Edit.bind_ok.mp h
    obtain ⟨-,rfl⟩ := Edit.read_ok.mp h
    unfold listFor at hx
    replace hx := (Edit.view_known hc).symm.trans hx
    rw [hform] at hx
    exact listFrom_spares (fun text => firstOf_spares text _ _) (fun text => allOf_spares text _ _) hs hv hx
  | field held hlines =>
    have htext : (do items (← listFor (← listHolder c) v c.target c.place) : Edit (List Value)) p s = .ok xs t →
        o.Spared w D t := by
      intro h
      obtain ⟨holder,hholder,h⟩ := Edit.ask_ok.mp h
      obtain ⟨x,u,hx,h⟩ := Edit.bind_ok.mp h
      obtain ⟨-,rfl⟩ := Edit.read_ok.mp h
      exact listFor_spares held hlines hs hv hc hholder hx
    rcases hlines with rfl | rfl
    · cases v with
      | text x => exact htext h
      | _ => exact heach h
    · exact heach h

theorem extendEach_spares (hvs : ∀ v ∈ vs, v.Outside o) (hs : o.Spared w D s) (h : extendEach w vs p s = .ok r t) :
    ∃ xs, o.Spared w (D ++ xs) t := by
  induction vs generalizing D s with
  | nil =>
    obtain ⟨-,rfl⟩ := Edit.pure_ok.mp h
    exact ⟨[],by rw [List.append_nil]; exact hs⟩
  | cons v vs ih =>
    unfold extendEach at h
    obtain ⟨x,u,hx,h⟩ := Edit.bind_ok.mp h
    obtain ⟨_,u',hupdate,h⟩ := Edit.bind_ok.mp h
    obtain rfl := Edit.updateView_ok.mp hupdate
    have hu := itemFrom_spares hlist hs ((hvs v List.mem_cons_self).offers s) hx
    obtain ⟨xs,hxs⟩ := ih (List.forall_mem_cons.mp hvs).2 (hu.show (· ++ [x])) h
    exact ⟨x :: xs,by rwa [List.append_assoc] at hxs⟩

end Items

end Converting

end CodeTree
