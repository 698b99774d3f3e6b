import CodeTree.Proofs.Converting
import CodeTree.Proofs.Trees

/-! # Changes that a node does not notice

What a node is written as does not depend on where the nodes of its tree hang, nor on cells outside of it. A freedom says
which cells may change; a node whose range of cells avoids it is written as it was.
-/
namespace CodeTree
variable {α β : Type} {p : Parser} {s t u : Store} {n : NodeId} {k : Kind} {c : NodeCell} {f : Field} {form : Form}
  {a b : Mark} {parent : Value} {place : Option Attr} {fields : List (String × Datum)} {fuel : Nat} {v : Value} {d : Datum}
  {lc : ListCell} {l : ListId} {x y : Mark} {e : NodeCell} {z : NodeId} {shown : Shown}

section Questions

theorem Read.bind_congr {x y : Read α} {g h : α → Read β} (hxy : x u = y t) (hgh : ∀ a, y t = .ok a → g a u = h a t) :
    (x >>= g) u = (y >>= h) t := by
  change (x u).bind (fun a => g a u) = (y t).bind (fun a => h a t)
  rw [hxy]
  cases hy : y t with
  | error fault => rfl
  | ok a => exact hgh a hy

theorem Read.mapM_congr {g h : α → Read β} {xs : List α} (hgh : ∀ x ∈ xs, g x u = h x t) : xs.mapM g u = xs.mapM h t := by
  induction xs with
  | nil => rfl
  | cons x xs ih =>
    simp only [List.mapM_cons]
    refine Read.bind_congr (hgh x (by simp)) (fun _ _ => Read.bind_congr (ih (fun y hy => hgh y (by simp [hy]))) (fun _ _ => rfl))

end Questions

section Cells

theorem NodeCell.Keeps.stored_eq (h : c.Keeps (fun _ => False) e) (a : Attr) : e.stored? a = c.stored? a :=
  h.stored a id

/-- Nodes with the same fields are written the same if what they hold is. -/
theorem snapshotAt_keeps (hc : t.nodes[n.index]? = some c) (he : u.nodes[n.index]? = some e)
    (hkeeps : c.Keeps (fun _ => False) e) (hint : c.kind = .int → ∃ x, c.stored? (.field .value) = some x)
    (htexts : c.kind ≠ .int → ∀ f ∈ c.texts, ∃ x, c.stored? (.field f) = some x)
    (hlists : c.kind ≠ .int → ∀ f ∈ c.lists, ∃ x ms, c.stored? (.field f) = some x ∧ members x t = .ok ms ∧ members x u = .ok ms ∧
      ∀ m ∈ ms, snapshotAt fuel m u = snapshotAt fuel m t)
    (hchildren : c.kind ≠ .int → ∀ f ∈ c.children, ∃ x, c.stored? (.field f) = some x ∧ isAbsent x u = isAbsent x t ∧
      snapshotAt fuel x u = snapshotAt fuel x t) :
    snapshotAt (fuel + 1) (.node n) u = snapshotAt (fuel + 1) (.node n) t := by
  have hlook : ∀ {f x}, c.stored? (.field f) = some x → look n (.field f) u = .ok x ∧ look n (.field f) t = .ok x :=
    fun {f x} hx => ⟨look_stored he ((hkeeps.stored_eq _).trans hx),look_stored hc hx⟩
  have hnode : Read.node n t = .ok c := Read.node_ok.mpr hc
  rw [snapshotAt]
  refine (Read.node_known he).trans (Eq.trans ?_ (Read.bind_known hnode).symm)
  rw [hkeeps.kind,hkeeps.texts,hkeeps.lists,hkeeps.children]
  by_cases hk : c.kind = .int
  · obtain ⟨x,hx⟩ := hint hk
    rw [if_pos (by simpa using hk)]
    exact Read.bind_congr ((hlook hx).1.trans (hlook hx).2.symm) (fun _ _ => rfl)
  rw [if_neg (by simpa using hk)]
  refine Read.bind_congr (Read.mapM_congr (fun f hf => ?_)) (fun _ _ => Read.bind_congr (Read.mapM_congr (fun f hf => ?_))
    (fun _ _ => Read.bind_congr (Read.mapM_congr (fun f hf => ?_)) (fun _ _ => rfl)))
  · obtain ⟨x,hx⟩ := htexts hk f hf
    exact Read.bind_congr ((hlook hx).1.trans (hlook hx).2.symm) (fun _ _ => rfl)
  · obtain ⟨x,ms,hx,hmt,hmu,hms⟩ := hlists hk f hf
    refine (Read.bind_known (hlook hx).1).trans (Eq.trans ?_ (Read.bind_known (hlook hx).2).symm)
    refine (Read.bind_known hmu).trans (Eq.trans ?_ (Read.bind_known hmt).symm)
    exact Read.bind_congr (Read.mapM_congr hms) (fun _ _ => rfl)
  · obtain ⟨x,hx,habsent,hchild⟩ := hchildren hk f hf
    refine (Read.bind_known (hlook hx).1).trans (Eq.trans ?_ (Read.bind_known (hlook hx).2).symm)
    refine Read.bind_congr habsent (fun absent _ => ?_)
    cases absent with
    | true => rfl
    | false => exact Read.bind_congr hchild (fun _ _ => rfl)

end Cells

section Drifting
variable {F G : Freedom}

/-- Like a frame, but lists and views may hang elsewhere, too, and a node that is free in all attributes can become
another one. -/
structure Store.Drifts (F : Freedom) (s t : Store) : Prop where
  node : ∀ {n : NodeId} {c}, s.nodes[n.index]? = some c → ∃ d, t.nodes[n.index]? = some d ∧
    ((∀ x, F.attr n x) ∨ c.Keeps (F.attr n) d)
  list : ∀ {l : ListId} {c}, s.lists[l.index]? = some c → ∃ d, t.lists[l.index]? = some d ∧ d.flavour = c.flavour ∧
    (¬ F.list l → d.items = c.items)
  view : ∀ {w : ViewId} {c}, s.views[w.index]? = some c → ∃ d, t.views[w.index]? = some d ∧ d.target = c.target

theorem Store.Frame.drifts (h : s.Frame F t) : s.Drifts F t where
  node hc := by
    obtain ⟨d,hd,hkeeps⟩ := h.node hc
    exact ⟨d,hd,.inr hkeeps⟩
  list hc := by
    obtain ⟨d,hd,hkeeps⟩ := h.list hc
    exact ⟨d,hd,hkeeps.flavour,hkeeps.items⟩
  view hc := by
    obtain ⟨d,hd,hkeeps⟩ := h.view hc
    exact ⟨d,hd,hkeeps.target⟩

/-- Everything about one node may change. -/
def Freedom.whole (z : NodeId) : Freedom := ⟨fun n _ => n = z,fun _ => False,fun _ => False⟩

theorem Store.GrowsOff.drifts (h : s.GrowsOff z t) : s.Drifts (.whole z) t where
  node {n c} hc := by
    have hlt := lt_nodes_of_get hc
    by_cases hn : n = z
    · exact ⟨_,Array.getElem?_eq_getElem (Nat.lt_of_lt_of_le hlt h.mark.1),.inl (fun _ => hn)⟩
    · exact ⟨c,(h.nodes _ hlt (fun hi => hn (congrArg NodeId.mk hi))).trans hc,.inr (.refl _ c)⟩
  list hc := ⟨_,(h.lists _ (lt_lists_of_get hc)).trans hc,rfl,fun _ => rfl⟩
  view hc := ⟨_,(h.views _ (lt_views_of_get hc)).trans hc,rfl⟩

theorem Store.Grows.drifts (h : s.Grows t) (F : Freedom) : s.Drifts F t := (h.frame F).drifts

/-- What a node hangs at is not written. -/
theorem Store.drifts_hung (s : Store) (m : NodeId) (parent : Value) (place : Option Attr) (F : Freedom) :
    s.Drifts F (s.mapNode m (fun c => { c with parent := parent, place := place })) where
  node {n c} hc := by
    rw [mapNode_get,hc]
    split
    · exact ⟨_,rfl,.inr ⟨rfl,rfl,rfl,rfl,rfl,fun _ h => h,fun _ _ => rfl⟩⟩
    · exact ⟨c,rfl,.inr (.refl _ c)⟩
  list hc := ⟨_,hc,rfl,fun _ => rfl⟩
  view hc := ⟨_,hc,rfl⟩

namespace Store.Drifts

theorem trans (h : s.Drifts F t) (h' : t.Drifts F u) : s.Drifts F u where
  node hc := by
    obtain ⟨d,hd,hfree | hk⟩ := h.node hc
    · obtain ⟨e,he,-⟩ := h'.node hd
      exact ⟨e,he,.inl hfree⟩
    · obtain ⟨e,he,hk'⟩ := h'.node hd
      exact ⟨e,he,hk'.imp_right hk.trans⟩
  list hc := by
    obtain ⟨d,hd,hflavour,hitems⟩ := h.list hc
    obtain ⟨e,he,hflavour',hitems'⟩ := h'.list hd
    exact ⟨e,he,hflavour'.trans hflavour,fun hl => (hitems' hl).trans (hitems hl)⟩
  view hc := by
    obtain ⟨d,hd,htarget⟩ := h.view hc
    obtain ⟨e,he,htarget'⟩ := h'.view hd
    exact ⟨e,he,htarget'.trans htarget⟩

theorem mono (h : s.Drifts F t) (hattr : ∀ n x, F.attr n x → G.attr n x) (hlist : ∀ l, F.list l → G.list l) : s.Drifts G t where
  node {n c} hc := by
    obtain ⟨d,hd,hkeeps⟩ := h.node hc
    refine ⟨d,hd,hkeeps.imp (fun hfree x => hattr n x (hfree x)) (fun hk => ?_)⟩
    exact { hk with stored := fun x hx => hk.stored x (fun hF => hx (hattr n x hF)) }
  list {l c} hc := by
    obtain ⟨d,hd,hflavour,hitems⟩ := h.list hc
    exact ⟨d,hd,hflavour,fun hl => hitems (fun hF => hl (hlist l hF))⟩
  view := h.view

/-- No cells are lost. -/
theorem mark (h : s.Drifts F t) : s.mark ≤ t.mark := by
  refine ⟨Nat.le_of_not_lt (fun hlt => ?_),Nat.le_of_not_lt (fun hlt => ?_),Nat.le_of_not_lt (fun hlt => ?_)⟩
  · obtain ⟨d,hd,-⟩ := h.node (n := ⟨t.nodes.size⟩) (Array.getElem?_eq_getElem hlt)
    exact Nat.lt_irrefl _ (lt_nodes_of_get hd)
  · obtain ⟨d,hd,-⟩ := h.list (l := ⟨t.lists.size⟩) (Array.getElem?_eq_getElem hlt)
    exact Nat.lt_irrefl _ (lt_lists_of_get hd)
  · obtain ⟨d,hd,-⟩ := h.view (w := ⟨t.views.size⟩) (Array.getElem?_eq_getElem hlt)
    exact Nat.lt_irrefl _ (lt_views_of_get hd)

end Store.Drifts

end Drifting

section Reading
variable {F : Freedom}

/-- The cells of a range are none of those that may change. -/
structure Freedom.Avoids (F : Freedom) (a b : Mark) : Prop where
  attr : ∀ {m : NodeId} {x}, a.nodes ≤ m.index → m.index < b.nodes → ¬ F.attr m x
  list : ∀ {l : ListId}, a.lists ≤ l.index → l.index < b.lists → ¬ F.list l

theorem Freedom.Avoids.part (h : F.Avoids a b) (ha : a ≤ x) (hb : y ≤ b) : F.Avoids x y :=
  ⟨fun hm hm' => h.attr (Nat.le_trans ha.1 hm) (Nat.lt_of_lt_of_le hm' hb.1),
    fun hl hl' => h.list (Nat.le_trans ha.2.1 hl) (Nat.lt_of_lt_of_le hl' hb.2.1)⟩

/-- Of the cells of a range, only those of a smaller one may change. -/
structure Freedom.Confined (F : Freedom) (a b x y : Mark) : Prop where
  attr : ∀ {m : NodeId} {attr}, a.nodes ≤ m.index → m.index < b.nodes → F.attr m attr → x.nodes ≤ m.index ∧ m.index < y.nodes
  list : ∀ {l : ListId}, a.lists ≤ l.index → l.index < b.lists → F.list l → x.lists ≤ l.index ∧ l.index < y.lists

theorem Freedom.Confined.part {a' b' : Mark} (h : F.Confined a b x y) (ha : a ≤ a') (hb : b' ≤ b) : F.Confined a' b' x y :=
  ⟨fun hm hm' => h.attr (Nat.le_trans ha.1 hm) (Nat.lt_of_lt_of_le hm' hb.1),
    fun hl hl' => h.list (Nat.le_trans ha.2.1 hl) (Nat.lt_of_lt_of_le hl' hb.2.1)⟩

theorem Freedom.Confined.avoids (h : F.Confined a b x y) (hbeside : b ≤ x ∨ y ≤ a) : F.Avoids a b := by
  refine ⟨fun hm hm' hF => ?_,fun hl hl' hF => ?_⟩
  · have hin := h.attr hm hm' hF
    rcases hbeside with hle | hle
    · have := hle.1
      omega
    · have := hle.1
      omega
  · have hin := h.list hl hl' hF
    rcases hbeside with hle | hle
    · have := hle.2.1
      omega
    · have := hle.2.1
      omega

theorem Freedom.whole_confined (hx : x.nodes ≤ z.index) (hy : z.index < y.nodes) : (Freedom.whole z).Confined a b x y :=
  ⟨fun _ _ hF => by cases hF; exact ⟨hx,hy⟩,fun _ _ hF => hF.elim⟩

variable (hu : t.Drifts F u)
include hu

theorem Store.Drifts.keeps (hc : t.nodes[n.index]? = some c) (hF : ∀ x, ¬ F.attr n x) :
    ∃ e, u.nodes[n.index]? = some e ∧ c.Keeps (fun _ => False) e := by
  obtain ⟨e,he,hfree | hkeeps⟩ := hu.node hc
  · exact absurd (hfree (.field .type)) (hF _)
  · exact ⟨e,he,{ hkeeps with stored := fun x _ => hkeeps.stored x (hF x) }⟩

theorem Store.Drifts.same_items (hl : t.lists[l.index]? = some lc) (hF : ¬ F.list l) :
    ∃ lc', u.lists[l.index]? = some lc' ∧ lc'.flavour = lc.flavour ∧ lc'.items = lc.items := by
  obtain ⟨lc',hl',hflavour,hitems⟩ := hu.list hl
  exact ⟨lc',hl',hflavour,hitems hF⟩

theorem Store.Drifts.members_list (hl : t.lists[l.index]? = some lc) (hF : ¬ F.list l) :
    members (.list l) t = .ok lc.items ∧ members (.list l) u = .ok lc.items := by
  obtain ⟨lc',hl',-,hitems⟩ := hu.same_items hl hF
  exact ⟨CodeTree.members_list hl,hitems ▸ CodeTree.members_list hl'⟩

theorem Store.Drifts.members_covers (hv : t.Covers v l) (hl : t.lists[l.index]? = some lc) (hF : ¬ F.list l) :
    members v t = .ok lc.items ∧ members v u = .ok lc.items := by
  rcases hv with rfl | ⟨w,vc,rfl,hw,htarget,-⟩
  · exact hu.members_list hl hF
  · obtain ⟨lc',hl',-,hitems⟩ := hu.same_items hl hF
    obtain ⟨vc',hw',htarget'⟩ := hu.view hw
    exact ⟨members_view hw htarget hl,hitems ▸ members_view hw' (htarget'.trans htarget) hl'⟩

theorem Store.Drifts.snapshot_space (h : t.nodes[n.index]? = some (spaceCell parent place)) (hF : ∀ x, ¬ F.attr n x) :
    snapshotAt fuel (.node n) u = snapshotAt fuel (.node n) t := by
  cases fuel with
  | zero => rfl
  | succ fuel =>
    obtain ⟨e,he,hkeeps⟩ := hu.keeps h hF
    refine snapshotAt_keeps h he hkeeps (fun hk => by cases hk) (fun _ f hf => ?_) (by simp [spaceCell]) (by simp [spaceCell])
    simp only [spaceCell,List.mem_cons,List.not_mem_nil,or_false] at hf
    rcases hf with rfl | rfl
    · exact ⟨_,rfl⟩
    · exact ⟨_,rfl⟩

end Reading

section Built
variable {F : Freedom}

theorem Kept.nodes_lt (h : Kept (build d parent place) p a b n t) : n.index = a.nodes ∧ a.nodes < b.nodes := by
  obtain ⟨_,_,_,-,hg⟩ := h.grown
  exact ⟨hg.first,hg.le.1⟩

/-- A node that was built from a datum is written the same wherever the nodes of its tree hang, and whatever happens to
other cells. -/
def Overlooks (d : Datum) : Prop :=
  ∀ ⦃p : Parser⦄ ⦃a b : Mark⦄ ⦃n : NodeId⦄ ⦃parent : Value⦄ ⦃place : Option Attr⦄ ⦃t u : Store⦄ ⦃F : Freedom⦄,
    Kept (build d parent place) p a b n t → t.Drifts F u → F.Avoids a b →
    ∀ fuel, snapshotAt fuel (.node n) u = snapshotAt fuel (.node n) t

theorem Kept.overlooks_each {ds : List Datum} (ih : ∀ d ∈ ds, Overlooks d) {ms : List Value}
    (h : Kept (buildEach ds parent place) p a b ms t) (hu : t.Drifts F u) (hF : F.Avoids a b) :
    ∀ m ∈ ms, snapshotAt fuel m u = snapshotAt fuel m t := by
  induction ds generalizing a ms with
  | nil =>
    cases h.nil
    simp
  | cons d ds ihds =>
    obtain ⟨n,rest,e,rfl,hd,hds,hae,heb⟩ := h.cons
    intro m hm
    rcases List.mem_cons.mp hm with rfl | hm
    · exact ih d (by simp) hd hu (hF.part (Mark.le_refl a) heb) fuel
    · exact ihds (fun d hd => ih d (by simp [hd])) hds (hF.part hae (Mark.le_refl b)) m hm

theorem Slotted.overlooks_list (h : Slotted p t n k fields form f d a b v) (hform : form.isList = true)
    (ih : ∀ ds, d = .list ds → ∀ e ∈ ds, Overlooks e) (hu : t.Drifts F u) (hF : F.Avoids a b) :
    ∃ ms, members v t = .ok ms ∧ members v u = .ok ms ∧ ∀ m ∈ ms, snapshotAt fuel m u = snapshotAt fuel m t := by
  unfold Slotted at h
  cases hr : respaced k fields f with
  | some present =>
    rw [hr] at h
    obtain ⟨l,items,rfl,hla,hlb,hl,hitems⟩ := h
    obtain ⟨hmt,hmu⟩ := hu.members_list hl (hF.list hla hlb)
    refine ⟨items,hmt,hmu,fun m hm => ?_⟩
    cases present with
    | false =>
      cases hitems
      simp at hm
    | true =>
      obtain ⟨x,rfl,hxa,hxb,hx⟩ := hitems
      cases List.mem_singleton.mp hm
      exact hu.snapshot_space hx (fun _ => hF.attr hxa hxb)
  | none =>
    rw [hr] at h
    have hlist : HoldsList p t n k f d a b v := by cases form <;> first | exact h | cases hform
    obtain ⟨vs,e,heb,hkept,hcovers,hl,hlt⟩ := hlist.covers_within
    have hle := hkept.le (buildItems_adds d _ _)
    obtain ⟨hmt,hmu⟩ := hu.members_covers hcovers hl (hF.list hle.2.1 hlt)
    obtain ⟨ds,hrow,hds⟩ := hkept.items
    refine ⟨vs,hmt,hmu,hrow.overlooks_each ?_ hu (hF.part (Mark.le_refl a) heb)⟩
    rcases hds with rfl | ⟨rfl,-⟩
    · exact ih ds rfl
    · simp

theorem Slotted.overlooks_child (h : Slotted p t n k fields .child f d a b v) (hslot : .field .child f shown ∈ k.layout)
    (ih : Overlooks d) (hu : t.Drifts F u) (hF : F.Avoids a b) :
    isAbsent v u = isAbsent v t ∧ snapshotAt fuel v u = snapshotAt fuel v t := by
  unfold Slotted at h
  cases hr : respaced k fields f with
  | some present => cases respaced_formatting hslot hr
  | none =>
    rw [hr] at h
    simp only [Holds,HoldsChild] at h
    split at h
    · obtain ⟨m,e,heb,rfl,hkept⟩ := h
      exact ⟨rfl,ih hkept hu (hF.part (Mark.le_refl a) heb) fuel⟩
    · subst h
      exact ⟨rfl,by cases fuel <;> rfl⟩

theorem Planted.slot_within (hg : Planted p t a b n parent place fields k c) (hk : k ≠ .int)
    (hslot : .field form f shown ∈ k.layout) : ∃ d v x y, lookupLast f.word fields = some d ∧ c.stored? (.field f) = some v ∧
      a ≤ x ∧ y ≤ b ∧ Slotted p t n k fields form f d x y v := (hg.sections hk).slot (layout_nodup k) hslot

theorem Planted.overlooks (hg : Planted p t a b n parent place fields k c)
    (ih : ∀ {word d}, lookupLast word fields = some d → Overlooks d ∧ ∀ ds, d = .list ds → ∀ e ∈ ds, Overlooks e)
    (hu : t.Drifts F u) (hn : ∀ x, ¬ F.attr n x) (hF : F.Avoids a b) :
    snapshotAt (fuel + 1) (.node n) u = snapshotAt (fuel + 1) (.node n) t := by
  obtain ⟨e,he,hkeeps⟩ := hu.keeps hg.cell hn
  have hkind := hg.kind
  refine snapshotAt_keeps hg.cell he hkeeps (fun hint => ?_) (fun hint f hf => ?_) (fun hint f hf => ?_) (fun hint f hf => ?_)
  · obtain ⟨_,i,-,-,hv⟩ := hg.number (hkind ▸ hint)
    exact ⟨_,hv⟩
  · obtain ⟨v,hv,-⟩ := hg.text_part (hkind ▸ hint) hf
    exact ⟨v,hv⟩
  · rw [hg.lists,mem_foldl_add] at hf
    obtain hf | ⟨form,shown,hform,hslot⟩ := hf
    · simp at hf
    obtain ⟨d,v,x,y,hd,hv,hx,hy,hh⟩ := hg.slot_within (hkind ▸ hint) hslot
    obtain ⟨ms,hms⟩ := hh.overlooks_list hform (ih hd).2 hu (hF.part hx hy)
    exact ⟨v,ms,hv,hms⟩
  · rw [hg.children,mem_foldl_add] at hf
    obtain hf | ⟨form,shown,hform,hslot⟩ := hf
    · simp at hf
    obtain rfl : form = .child := by simpa [Form.isChild] using hform
    obtain ⟨d,v,x,y,hd,hv,hx,hy,hh⟩ := hg.slot_within (hkind ▸ hint) hslot
    exact ⟨v,hv,hh.overlooks_child hslot (ih hd).1 hu (hF.part hx hy)⟩

theorem overlooks (d : Datum) : Overlooks d := by
  induction d using Datum.induct_built with
  | other d hd => exact fun _ _ _ _ _ _ _ _ _ h => (h.not_built hd).elim
  | record fields ih =>
    intro p a b n parent place t u F h hu hF fuel
    obtain ⟨hfirst,hlt⟩ := h.nodes_lt
    obtain ⟨_,k,c,heq,hg⟩ := h.grown
    cases heq
    cases fuel with
    | zero => rfl
    | succ fuel =>
      refine hg.toPlanted.overlooks ih hu (fun _ => hF.attr (by omega) (by omega))
        (hF.part ⟨Nat.le_succ _,Nat.le_refl _,Nat.le_refl _⟩ (Mark.le_refl b))

end Built

end CodeTree
