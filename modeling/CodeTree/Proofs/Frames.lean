import CodeTree.Items
import CodeTree.Proofs.Storing

/-! # Frames

What an edit leaves alone, also when it fails half-way. Cells never go away, a node stays of its kind
and keeps its sorts of fields, and a list or view stays where it hangs. What else can change is said
by a freedom: which attributes of which nodes, and the items of which lists and views.
-/
namespace CodeTree
variable {α β : Type} {a : Attr} {k : Kind} {l : ListId} {n : NodeId} {free : Prop} {type : Value} {w : ViewId}

structure NodeCell.Keeps (free : Attr → Prop) (c d : NodeCell) : Prop where
  kind : d.kind = c.kind
  building : d.building = c.building
  texts : d.texts = c.texts
  lists : d.lists = c.lists
  children : d.children = c.children
  present : ∀ a, (c.stored? a).isSome = true → (d.stored? a).isSome = true
  stored : ∀ a, ¬ free a → d.stored? a = c.stored? a

structure ListCell.Keeps (free : Prop) (c d : ListCell) : Prop where
  flavour : d.flavour = c.flavour
  parent : d.parent = c.parent
  place : d.place = c.place
  named : d.extra.lookup "parent" = c.extra.lookup "parent"
  items : ¬ free → d.items = c.items

structure ViewCell.Keeps (free : Prop) (c d : ViewCell) : Prop where
  form : d.form = c.form
  target : d.target = c.target
  place : d.place = c.place
  parent : d.parent = c.parent
  style : d.style = c.style
  named : d.extra.lookup "parent" = c.extra.lookup "parent"
  items : ¬ free → d.items = c.items

theorem NodeCell.Keeps.refl (free : Attr → Prop) (c : NodeCell) : c.Keeps free c :=
  ⟨rfl,rfl,rfl,rfl,rfl,fun _ h => h,fun _ _ => rfl⟩

theorem ListCell.Keeps.refl (free : Prop) (c : ListCell) : c.Keeps free c :=
  ⟨rfl,rfl,rfl,rfl,fun _ => rfl⟩

theorem ViewCell.Keeps.refl (free : Prop) (c : ViewCell) : c.Keeps free c :=
  ⟨rfl,rfl,rfl,rfl,rfl,rfl,fun _ => rfl⟩

theorem NodeCell.Keeps.trans {free : Attr → Prop} {c d e : NodeCell} (h : c.Keeps free d) (h' : d.Keeps free e) :
    c.Keeps free e :=
  ⟨h'.kind.trans h.kind,h'.building.trans h.building,h'.texts.trans h.texts,h'.lists.trans h.lists,
    h'.children.trans h.children,fun a ha => h'.present a (h.present a ha),
    fun a ha => (h'.stored a ha).trans (h.stored a ha)⟩

theorem ListCell.Keeps.trans {c d e : ListCell} (h : c.Keeps free d) (h' : d.Keeps free e) : c.Keeps free e :=
  ⟨h'.flavour.trans h.flavour,h'.parent.trans h.parent,h'.place.trans h.place,h'.named.trans h.named,
    fun hf => (h'.items hf).trans (h.items hf)⟩

theorem ViewCell.Keeps.trans {c d e : ViewCell} (h : c.Keeps free d) (h' : d.Keeps free e) : c.Keeps free e :=
  ⟨h'.form.trans h.form,h'.target.trans h.target,h'.place.trans h.place,h'.parent.trans h.parent,
    h'.style.trans h.style,h'.named.trans h.named,fun hf => (h'.items hf).trans (h.items hf)⟩

/-- What may change besides where nodes hang. -/
structure Freedom where
  attr : NodeId → Attr → Prop
  list : ListId → Prop
  view : ViewId → Prop

namespace Freedom

/-- The types of nodes may not change. -/
abbrev KeepsTypes (F : Freedom) : Prop := ∀ n, ¬ F.attr n (.field .type)

def nothing : Freedom := ⟨fun _ _ => False,fun _ => False,fun _ => False⟩

/-- One attribute of one node. -/
def only (n : NodeId) (a : Attr) : Freedom := ⟨fun m b => m = n ∧ b = a,fun _ => False,fun _ => False⟩

/-- All attributes but the type of a node, and no items. -/
def attributes : Freedom := ⟨fun _ a => a ≠ .field .type,fun _ => False,fun _ => False⟩

/-- All attributes but the type of a node, and the items of one view and of the list behind it. -/
def editing (w : ViewId) (l : ListId) : Freedom :=
  ⟨fun _ a => a ≠ .field .type,fun l' => l' = l,fun w' => w' = w⟩

instance : LE Freedom :=
  ⟨fun F G => (∀ n a, F.attr n a → G.attr n a) ∧ (∀ l, F.list l → G.list l) ∧ ∀ w, F.view w → G.view w⟩

theorem nothing_le (F : Freedom) : nothing ≤ F := ⟨fun _ _ h => h.elim,fun _ h => h.elim,fun _ h => h.elim⟩

theorem only_le (h : a ≠ .field .type) : only n a ≤ attributes :=
  ⟨fun _ _ hm => hm.2 ▸ h,fun _ h => h.elim,fun _ h => h.elim⟩

theorem type_kept (n : NodeId) : ¬ attributes.attr n (.field .type) := fun h => h rfl

theorem editing_type (w : ViewId) (l : ListId) (n : NodeId) : ¬ (editing w l).attr n (.field .type) := fun h => h rfl

theorem attributes_le (w : ViewId) (l : ListId) : attributes ≤ editing w l :=
  ⟨fun _ _ h => h,fun _ h => h.elim,fun _ h => h.elim⟩

end Freedom

namespace Store
variable {F G : Freedom} {s t u : Store}

structure Frame (F : Freedom) (s t : Store) : Prop where
  node : ∀ {n : NodeId} {c}, s.nodes[n.index]? = some c → ∃ d, t.nodes[n.index]? = some d ∧ c.Keeps (F.attr n) d
  list : ∀ {l : ListId} {c}, s.lists[l.index]? = some c → ∃ d, t.lists[l.index]? = some d ∧ c.Keeps (F.list l) d
  view : ∀ {w : ViewId} {c}, s.views[w.index]? = some c → ∃ d, t.views[w.index]? = some d ∧ c.Keeps (F.view w) d

theorem Frame.refl (F : Freedom) (s : Store) : Frame F s s :=
  ⟨fun h => ⟨_,h,.refl _ _⟩,fun h => ⟨_,h,.refl _ _⟩,fun h => ⟨_,h,.refl _ _⟩⟩

theorem Frame.trans (h : Frame F s t) (h' : Frame F t u) : Frame F s u where
  node hc := by
    obtain ⟨d,hd,hk⟩ := h.node hc
    obtain ⟨e,he,hk'⟩ := h'.node hd
    exact ⟨e,he,hk.trans hk'⟩
  list hc := by
    obtain ⟨d,hd,hk⟩ := h.list hc
    obtain ⟨e,he,hk'⟩ := h'.list hd
    exact ⟨e,he,hk.trans hk'⟩
  view hc := by
    obtain ⟨d,hd,hk⟩ := h.view hc
    obtain ⟨e,he,hk'⟩ := h'.view hd
    exact ⟨e,he,hk.trans hk'⟩

theorem Frame.mono (h : Frame F s t) (hF : F ≤ G) : Frame G s t where
  node hc := by
    obtain ⟨d,hd,hk⟩ := h.node hc
    exact ⟨d,hd,{ hk with stored := fun a ha => hk.stored a (fun hf => ha (hF.1 _ a hf)) }⟩
  list hc := by
    obtain ⟨d,hd,hk⟩ := h.list hc
    exact ⟨d,hd,{ hk with items := fun hn => hk.items (fun hf => hn (hF.2.1 _ hf)) }⟩
  view hc := by
    obtain ⟨d,hd,hk⟩ := h.view hc
    exact ⟨d,hd,{ hk with items := fun hn => hk.items (fun hf => hn (hF.2.2 _ hf)) }⟩

theorem Grows.frame (h : s.Grows t) (F : Freedom) : Frame F s t where
  node hc := ⟨_,(h.nodes _ (lt_nodes_of_get hc)).trans hc,.refl _ _⟩
  list hc := ⟨_,(h.lists _ (lt_lists_of_get hc)).trans hc,.refl _ _⟩
  view hc := ⟨_,(h.views _ (lt_views_of_get hc)).trans hc,.refl _ _⟩

theorem size_le {xs : Array α} {ys : Array β} (h : ∀ (i : Nat) x, xs[i]? = some x → ∃ y, ys[i]? = some y) :
    xs.size ≤ ys.size := by
  by_contra hlt
  obtain ⟨y,hy⟩ := h ys.size xs[ys.size] (Array.getElem?_eq_getElem (by omega))
  rw [Array.getElem?_eq_none (Nat.le_refl _)] at hy
  cases hy

theorem Frame.mark (h : Frame F s t) : s.mark ≤ t.mark := by
  refine ⟨size_le (fun i c hc => ?_),size_le (fun i c hc => ?_),size_le (fun i c hc => ?_)⟩
  · obtain ⟨d,hd,-⟩ := h.node (n := ⟨i⟩) hc
    exact ⟨d,hd⟩
  · obtain ⟨d,hd,-⟩ := h.list (l := ⟨i⟩) hc
    exact ⟨d,hd⟩
  · obtain ⟨d,hd,-⟩ := h.view (w := ⟨i⟩) hc
    exact ⟨d,hd⟩

theorem Frame.depth_le (h : Frame F s t) : s.depth ≤ t.depth := by
  obtain ⟨hn,hl,hv⟩ := h.mark
  simp only [mark_nodes,mark_lists,mark_views] at hn hl hv
  unfold depth
  omega

theorem frame_mapNode {f : NodeCell → NodeCell} (hf : ∀ c : NodeCell, c.Keeps (F.attr n) (f c)) :
    Frame F s (s.mapNode n f) where
  node {m c} hc := by
    rw [mapNode_get]
    by_cases hm : n.index = m.index
    · rw [if_pos hm,hc]
      obtain rfl : n = m := congrArg NodeId.mk hm
      exact ⟨f c,rfl,hf c⟩
    · rw [if_neg hm]
      exact ⟨c,hc,.refl _ _⟩
  list hc := ⟨_,hc,.refl _ _⟩
  view hc := ⟨_,hc,.refl _ _⟩

theorem frame_put (s : Store) (h : F.attr n a) (v : Value) : Frame F s (s.mapNode n (·.put a v)) := by
  refine frame_mapNode (fun c => ⟨rfl,rfl,rfl,rfl,rfl,fun b hb => ?_,fun b hb => ?_⟩)
  · rw [NodeCell.stored_put]
    split
    · rfl
    · exact hb
  · exact NodeCell.stored_put_of_ne (fun hba => hb (hba ▸ h))

theorem frame_mapList {f : ListCell → ListCell} (hf : ∀ c : ListCell, c.Keeps (F.list l) (f c)) :
    Frame F s (s.mapList l f) where
  node hc := ⟨_,hc,.refl _ _⟩
  list {m c} hc := by
    rw [mapList_get]
    by_cases hm : l.index = m.index
    · rw [if_pos hm,hc]
      obtain rfl : l = m := congrArg ListId.mk hm
      exact ⟨f c,rfl,hf c⟩
    · rw [if_neg hm]
      exact ⟨c,hc,.refl _ _⟩
  view hc := ⟨_,hc,.refl _ _⟩

theorem frame_mapView {f : ViewCell → ViewCell} (hf : ∀ c : ViewCell, c.Keeps (F.view w) (f c)) :
    Frame F s (s.mapView w f) where
  node hc := ⟨_,hc,.refl _ _⟩
  list hc := ⟨_,hc,.refl _ _⟩
  view {m c} hc := by
    rw [mapView_get]
    by_cases hm : w.index = m.index
    · rw [if_pos hm,hc]
      obtain rfl : w = m := congrArg ViewId.mk hm
      exact ⟨f c,rfl,hf c⟩
    · rw [if_neg hm]
      exact ⟨c,hc,.refl _ _⟩

end Store

/-- An edit that stays within a freedom, whatever it meets. -/
abbrev Within (F : Freedom) (e : Edit α) : Prop := e.Meets (fun _ => True) (Store.Frame F) (fun _ _ => True)

namespace Within
variable {F G : Freedom}

theorem bind {x : Edit α} {f : α → Edit β} (hx : Within F x) (hf : ∀ a, Within F (f a)) : Within F (x >>= f) :=
  Edit.Meets.bind (fun _ _ _ => Store.Frame.trans) hx hf

theorem pure (a : α) : Within F (Pure.pure a : Edit α) := Edit.Meets.pure (Store.Frame.refl F) (fun _ _ => trivial)

theorem throw (e : Fault) : Within F (MonadExcept.throw e : Edit α) := Edit.Meets.throw (Store.Frame.refl F)

theorem read (r : Read α) : Within F (liftM r : Edit α) :=
  Edit.Meets.read (Store.Frame.refl F) (fun _ _ _ _ => trivial)

theorem lift (r : Except Fault α) : Within F (Edit.lift r) :=
  Edit.Meets.lift (Store.Frame.refl F) (fun _ _ _ _ => trivial)

theorem of_adds {e : Edit α} (h : Adds e) : Within F e := by
  intro p s hs
  have hm := h p s hs
  split
  · next a t he =>
    rw [he] at hm
    exact ⟨hm.1.frame F,trivial⟩
  · next fault t he =>
    rw [he] at hm
    exact Store.Grows.frame hm F

theorem mono {e : Edit α} (h : Within F e) (hF : F ≤ G) : Within G e :=
  Edit.Meets.reframe h (fun _ _ hs => hs.mono hF)

/-- The branches of a choice that depends on the store. -/
theorem ite {b : Bool} {x y : Edit α} (hx : Within F x) (hy : Within F y) : Within F (if b then x else y) := by
  split
  · exact hx
  · exact hy

theorem putAttr (h : F.attr n a) (v : Value) : Within F (putAttr n a v) :=
  fun _ s _ => ⟨Store.frame_put s h v,trivial⟩

theorem updateItems (h : F.list l) (xs : ListCell → List Value) :
    Within F (Edit.updateList l (fun c => { c with items := xs c })) :=
  fun _ _ _ => ⟨Store.frame_mapList (fun _ => ⟨rfl,rfl,rfl,rfl,fun hn => absurd h hn⟩),trivial⟩

theorem setSpacing {f : Field} (h : F.attr n (.field f)) (place : Option Attr) (present : Bool) :
    Within F (setSpacing n f place present) := by
  unfold CodeTree.setSpacing newSpace newPlainList newLooseList newNodeList
  refine bind (read _) (fun c => ?_)
  have hput : ∀ lc, Within F (do let l ← Edit.newList lc; CodeTree.putAttr n (.field f) (.list l)) :=
    fun lc => bind (of_adds (Adds.newList _)) (fun l => putAttr h _)
  exact ite (bind (of_adds (Adds.newNode _)) (fun _ => bind (pure _) (fun _ => ite (hput _) (hput _))))
    (bind (pure _) (fun _ => ite (hput _) (hput _)))

/-- What a node, list or view names as its indentation. -/
theorem setIndent {v : Value} (h : ∀ n, v = .node n → F.attr n (.field .indent)) (indent : Value) :
    Within F (setIndent v indent) := by
  unfold CodeTree.setIndent
  cases v with
  | node n =>
    have hn := h n rfl
    exact bind (read _) (fun c => ite (bind (read _) (fun _ => putAttr hn _)) (putAttr hn _))
  | list l =>
    refine bind (read _) (fun c => ite ?_ (throw _))
    refine fun _ s _ => ⟨Store.frame_mapList (fun c => ⟨rfl,rfl,rfl,?_,fun _ => rfl⟩),trivial⟩
    rw [lookup_putPair]
    rfl
  | view w =>
    refine fun _ s _ => ⟨Store.frame_mapView (fun c => ⟨rfl,rfl,rfl,rfl,rfl,?_,fun _ => rfl⟩),trivial⟩
    rw [lookup_putPair]
    rfl
  | _ => exact throw _

end Within

section Types
variable {F : Freedom} {s t : Store} {word : String} {v : Value}

/-- A node that goes by a type. -/
def Store.Goes (s : Store) (v : Value) (k : Kind) (type : Value) : Prop :=
  ∃ n c, v = .node n ∧ s.nodes[n.index]? = some c ∧ c.kind = k ∧ c.stored? (.field .type) = some type

theorem Store.Goes.frame (h : s.Goes v k type) (hF : s.Frame F t) (ht : F.KeepsTypes) :
    t.Goes v k type := by
  obtain ⟨n,c,rfl,hc,hk,htype⟩ := h
  obtain ⟨d,hd,hkeeps⟩ := hF.node hc
  exact ⟨n,d,rfl,hd,hkeeps.kind.trans hk,(hkeeps.stored _ (ht n)).trans htype⟩

theorem Store.Goes.typeOf (h : s.Goes v k type) : typeOf v s = .ok type := by
  obtain ⟨n,c,rfl,hc,-,ht⟩ := h
  unfold CodeTree.typeOf plainAttr
  simp only [Read.bind_ok,Read.depth_ok,exists_eq_left']
  unfold Store.depth attrWith
  exact look_stored hc ht

/-- Whether a type is the one that a word names. -/
def Value.reads (type : Value) (word : String) : Bool :=
  match type with
  | .text t => t == word
  | _ => false

theorem Value.reads_iff : type.reads word = true ↔ type = .text word := by
  unfold reads
  cases type <;> simp

theorem Store.Goes.hasType (h : s.Goes v k type) : hasType v word s = .ok (type.reads word) := by
  unfold CodeTree.hasType
  simp only [Read.bind_ok]
  refine ⟨type,h.typeOf,?_⟩
  unfold Value.reads
  cases type <;> rfl

/-- A node of another type than the one that a word names. -/
def Store.Item (word : String) (s : Store) (v : Value) : Prop := ∃ k type, s.Goes v k type ∧ type ≠ .text word

/-- A node that goes by the type of a separator only if it is one. -/
def Store.Tells (word : String) (s : Store) (v : Value) : Prop :=
  ∃ k type, s.Goes v k type ∧ (type = .text word → k.separates = true)

/-- A node that goes by the word of its kind. -/
def Store.Honest (s : Store) (v : Value) : Prop :=
  ∃ k, s.Goes v k (.text k.word) ∧ Kind.ofWord? k.word = some k

theorem Store.Item.frame (h : s.Item word v) (hF : s.Frame F t) (ht : F.KeepsTypes) :
    t.Item word v := by
  obtain ⟨k,type,hgoes,hne⟩ := h
  exact ⟨k,type,hgoes.frame hF ht,hne⟩

theorem Store.Tells.frame (h : s.Tells word v) (hF : s.Frame F t) (ht : F.KeepsTypes) :
    t.Tells word v := by
  obtain ⟨k,type,hgoes,hword⟩ := h
  exact ⟨k,type,hgoes.frame hF ht,hword⟩

theorem Store.Honest.tells (h : s.Honest v) (hw : ∀ k, Kind.ofWord? word = some k → k.separates = true) :
    s.Tells word v := by
  obtain ⟨k,hgoes,hk⟩ := h
  refine ⟨k,_,hgoes,fun heq => hw k ?_⟩
  rw [← hk,Value.text.inj heq]

theorem Store.Tells.item (h : s.Tells word v) (hs : separates v s = .ok false) : s.Item word v := by
  obtain ⟨k,type,hgoes,hword⟩ := h
  refine ⟨k,type,hgoes,fun heq => ?_⟩
  obtain ⟨n,c,rfl,hc,rfl,-⟩ := hgoes
  simp only [separates,Read.bind_ok,Read.node_ok,Read.pure_ok] at hs
  obtain ⟨c',hc',hsep⟩ := hs
  rw [hc] at hc'
  cases hc'
  rw [hword heq] at hsep
  cases hsep

end Types

end CodeTree
