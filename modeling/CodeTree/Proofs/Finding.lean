import Mathlib.Data.List.Perm.Subperm
import CodeTree.Proofs.Asking
import CodeTree.Proofs.Descent

/-! # Finding all nodes

Searching a node for all nodes that a query accepts goes through the node and what lies below it in order, but
a child that counts as false is passed over with all that lies below it: a node whose value is a view of no items.
So what is found are the accepted nodes among those that are met, each once, and none is missed exactly if no
accepted node lies below such a child.
-/
namespace CodeTree
variable {α : Type} {a : Arguments} {f : Field} {form : Form} {ms : List NodeId} {l root : ListId} {i height fuel : Nat}
  {c : NodeCell} {n : NodeId} {P : NodeId → Prop} {u : Store} {v : Value} {w : ViewId}

/-- A node counts as true unless its value is a view without items. -/
def Store.filled (t : Store) (m : NodeId) : Bool :=
  match (t.nodes[m.index]?).bind (NodeCell.stored? · (.field .value)) with
  | some (.view w) => (t.views[w.index]?).all (fun vc => !vc.items.isEmpty)
  | _ => true

/-- A node of a document lies below one of its rows. -/
def Store.Member (t : Store) (w : ViewId) (n : NodeId) : Prop := ∃ r ∈ t.nodesOf (.view w), t.Descends everywhere r n

/-- All cells that were there stay as they are, but for the items that views show. -/
structure Store.Carries (t u : Store) : Prop where
  mark : t.mark ≤ u.mark
  node : ∀ {n : NodeId} {c : NodeCell}, t.nodes[n.index]? = some c → u.nodes[n.index]? = some c
  list : ∀ {l : ListId} {c : ListCell}, t.lists[l.index]? = some c → u.lists[l.index]? = some c
  view : ∀ {w : ViewId} {c : ViewCell}, t.views[w.index]? = some c →
    ∃ shown, u.views[w.index]? = some { c with items := shown }

section Carrying
variable {t u : Store}

theorem Store.Grows.carries (h : t.Grows u) : t.Carries u where
  mark := h.mark
  node hc := (h.nodes _ (Store.lt_nodes_of_get hc)).trans hc
  list hc := (h.lists _ (Store.lt_lists_of_get hc)).trans hc
  view {_ c} hc := ⟨c.items,(h.views _ (Store.lt_views_of_get hc)).trans hc⟩

theorem Store.Carries.trans {v : Store} (h : t.Carries u) (h' : u.Carries v) : t.Carries v where
  mark := Mark.le_trans h.mark h'.mark
  node hc := h'.node (h.node hc)
  list hc := h'.list (h.list hc)
  view hc := by
    obtain ⟨_,hd⟩ := h.view hc
    obtain ⟨shown,he⟩ := h'.view hd
    exact ⟨shown,he⟩

variable (hcarries : t.Carries u)
include hcarries

theorem Store.Carries.depth_le : t.depth ≤ u.depth := by
  have hmark := Mark.le_def.mp hcarries.mark
  simp only [Store.mark_nodes,Store.mark_lists,Store.mark_views] at hmark
  unfold Store.depth
  omega

theorem Store.Carries.siblings {parent : Value} {place : Attr} (h : t.Siblings P parent place ms) :
    u.Siblings P parent place ms := by
  refine ⟨h.nodup,fun m hm => ?_,h.each⟩
  obtain ⟨c,hc,hparent,hplace⟩ := h.hang m hm
  exact ⟨c,hcarries.node hc,hparent,hplace⟩

theorem Store.Carries.covers (h : t.Covers v l) : u.Covers v l := by
  rcases h with rfl | ⟨w,vc,rfl,hw,htarget,hextra⟩
  · exact .inl rfl
  · obtain ⟨_,hd⟩ := hcarries.view hw
    exact .inr ⟨w,_,rfl,hd,htarget,hextra⟩

theorem Store.Carries.tree (h : t.Tree i n) : u.Tree i n := by
  induction i generalizing n with
  | zero => exact h.elim
  | succ i ih =>
    obtain ⟨c,hc⟩ := h
    exact ⟨c,hc.carry (hcarries.node hc.cell) (fun _ ⟨d,hd,hhangs⟩ => ⟨d,hcarries.node hd,hhangs⟩) (fun hl _ => hcarries.list hl)
      hcarries.covers (fun m hm => ih hm)⟩

theorem Store.Document.carries (h : t.Document w root height) : u.Document w root height := by
  obtain ⟨vc,hw,hview⟩ := h.view
  obtain ⟨ms,hl,hms⟩ := h.rows
  obtain ⟨_,hw'⟩ := hcarries.view hw
  refine ⟨⟨_,hw',hview⟩,⟨ms,hcarries.list hl,?_⟩,Nat.le_trans h.depth hcarries.depth_le⟩
  exact (hcarries.siblings hms).mono (fun m hm => hcarries.tree hm)

omit hcarries in
/-- A document stays one while cells are added. -/
theorem Store.Document.grows (hgrows : t.Grows u) (h : t.Document w root height) :
    u.Document w root height := h.carries hgrows.carries

end Carrying

section Trees
variable {t : Store} {n : NodeId} {i : Nat}

/-- The nodes of a document are trees. -/
theorem Store.Document.member (h : t.Document w root height) (hn : t.Member w n) : t.Tree height n := by
  obtain ⟨vc,hw,-,htarget,-,-,hextra⟩ := h.view
  obtain ⟨ms,hl,hms⟩ := h.rows
  obtain ⟨r,hr,hd⟩ := hn
  rw [Store.nodesOf_covers (.inr ⟨w,vc,rfl,hw,htarget,hextra⟩),Store.rowOf_eq hl rfl] at hr
  exact hd.tree (hms.each r hr)

theorem Store.Carries.nodesOf (hcarries : t.Carries u) (h : t.Bears P n f form v) : u.nodesOf v = t.nodesOf v := by
  cases h with
  | datum d => rw [Store.nodesOf_ofDatum,Store.nodesOf_ofDatum]
  | empty => rfl
  | child => rfl
  | row _ covers cell =>
    rw [Store.nodesOf_covers covers,Store.nodesOf_covers (hcarries.covers covers),Store.rowOf_eq cell rfl,
      Store.rowOf_eq (hcarries.list cell) rfl]
  | loose cell _ items => exact (Store.rowOf_eq (hcarries.list cell) items).trans (Store.rowOf_eq cell items).symm

theorem Store.Carries.below_eq (hcarries : t.Carries u) (hc : t.Stands P n c) :
    u.below everywhere n = t.below everywhere n := by
  rw [hc.below_eq,Store.below,hcarries.node hc.cell,Option.elim_some]
  refine List.flatMap_congr (fun slot hslot => ?_)
  cases slot with
  | constant => rfl
  | field form f shown =>
    obtain ⟨v,hv,hb⟩ := hc.bears form f shown hslot
    have hnodes := hcarries.nodesOf hb
    cases form <;> simp only [Store.hung,hv,Option.elim_some,hnodes]

theorem Store.Carries.descends_iff {m : NodeId} (hcarries : t.Carries u) (h : t.Tree i n) :
    u.Descends everywhere n m ↔ t.Descends everywhere n m := by
  constructor
  · intro hd
    induction hd with
    | self => exact .self
    | @step m k down hangs ih =>
      have hm := ih.tree h
      obtain ⟨j,c,rfl,hc⟩ := hm.opens
      exact .step ih (hcarries.below_eq hc ▸ hangs)
  · intro hd
    induction hd with
    | self => exact .self
    | @step m k down hangs ih =>
      have hm := down.tree h
      obtain ⟨j,c,rfl,hc⟩ := hm.opens
      exact .step ih ((hcarries.below_eq hc).symm ▸ hangs)

/-- The nodes of a document that is carried over. -/
theorem Store.Document.member_iff (h : t.Document w root height) (hcarries : t.Carries u) : u.Member w n ↔ t.Member w n := by
  obtain ⟨vc,hw,-,htarget,-,-,hextra⟩ := h.view
  obtain ⟨ms,hl,hms⟩ := h.rows
  have hcovers : t.Covers (.view w) root := .inr ⟨w,vc,rfl,hw,htarget,hextra⟩
  have hrows : t.nodesOf (.view w) = ms := (Store.nodesOf_covers hcovers).trans (Store.rowOf_eq hl rfl)
  have hrows' : u.nodesOf (.view w) = ms :=
    (Store.nodesOf_covers (hcarries.covers hcovers)).trans (Store.rowOf_eq (hcarries.list hl) rfl)
  unfold Store.Member
  rw [hrows,hrows']
  constructor
  · rintro ⟨r,hr,hd⟩
    exact ⟨r,hr,(hcarries.descends_iff (hms.each r hr)).mp hd⟩
  · rintro ⟨r,hr,hd⟩
    exact ⟨r,hr,(hcarries.descends_iff (hms.each r hr)).mpr hd⟩

theorem lengthWith_value (h : Read.orElseMissing (look n (.field .value)) (pure .none) t = .ok v) :
    (∀ w vc, v = .view w → t.views[w.index]? = some vc → lengthWith look n t = .ok vc.items.length) ∧
      ((∀ w, v ≠ .view w) → lengthWith look n t = .ok 1) := by
  unfold lengthWith
  rw [Read.bind_known h]
  constructor
  · rintro w vc rfl hw
    exact Read.view_known hw
  · intro hv
    cases v with
    | view w => exact absurd rfl (hv w)
    | _ => rfl

/-- Whether a node counts as true. -/
theorem Store.Tree.truth (h : t.Tree i n) (hdepth : i < t.depth) : truthWith look (.node n) t = .ok (t.filled n) := by
  obtain ⟨j,rfl⟩ := h.succ
  obtain ⟨c,hc⟩ := id h
  have hlook := (h.lookAt_value (by omega) hdepth hc.cell).congr (look_at t n (.field .value))
  obtain ⟨v,hv,hstored⟩ := hlook.orElse (d := pure Value.none)
  have hfilled : t.filled n = match c.stored? (.field .value) with
      | some (.view w) => (t.views[w.index]?).all (fun vc => !vc.items.isEmpty)
      | _ => true := by
    unfold Store.filled
    rw [hc.cell,Option.bind_some]
  have hnode : ∀ k, lengthWith look n t = .ok k → t.filled n = (k != 0) → truthWith look (.node n) t = .ok (t.filled n) := by
    intro k hk hb
    rw [hb]
    exact Read.bind_known hk
  by_cases hview : ∃ w, v = .view w
  · obtain ⟨w,rfl⟩ := hview
    rcases hstored with hstored | ⟨-,hfound⟩
    · obtain ⟨vc,l,ms,hvc,-⟩ := hc.view hstored
      refine hnode _ ((lengthWith_value hv).1 w vc rfl hvc) ?_
      rw [hfilled,hstored]
      dsimp only
      rw [hvc,Option.all_some]
      cases vc.items <;> rfl
    · rcases hfound with hfound | hfound | ⟨_,_,hfound,-⟩ <;> cases hfound
  · rw [not_exists] at hview
    refine hnode 1 ((lengthWith_value hv).2 hview) ?_
    rw [hfilled]
    split
    · next w hw =>
      rw [hw] at hstored
      rcases hstored with hstored | ⟨hstored,-⟩
      · exact absurd (Option.some.inj hstored).symm (hview w)
      · cases hstored
    · rfl

end Trees

section Searching
variable {p : Parser} {t : Store} {n : NodeId} {accepts : NodeId → Edit Bool} {holds : NodeId → Bool}

theorem gather_known {β : Type} {f : α → Edit (List β)} {g : α → List β} {xs : List α} (h : ∀ x ∈ xs, f x p t = .ok (g x) t) :
    gather f xs p t = .ok (xs.flatMap g) t := by
  induction xs with
  | nil => rfl
  | cons x xs ih =>
    unfold gather
    rw [Edit.run_bind,h x List.mem_cons_self]
    dsimp only
    rw [Edit.run_bind,ih (List.forall_mem_cons.mp h).2]
    rfl

theorem gather_nodes {f : Value → Edit (List Value)} {g : NodeId → List Value} (h : ∀ m ∈ ms, f (.node m) p t = .ok (g m) t) :
    gather f (ms.map .node) p t = .ok (ms.flatMap g) t := by
  have hflat : (ms.map Value.node).flatMap (fun v => v.node?.elim [] g) = ms.flatMap g := List.flatMap_map _ _ _
  rw [← hflat]
  refine gather_known (fun v hv => ?_)
  obtain ⟨m,hm,rfl⟩ := List.mem_map.mp hv
  exact h m hm

/-- What a search for all nodes makes of one slot of a node. -/
def findSlot (accepts : NodeId → Edit Bool) (fuel : Nat) (n : NodeId) : Slot → Edit (List Value)
  | .field .child f _ => do
    let child ← look n (.field f)
    match child with
    | .node _ => if ← truthWith look child then findAllIn look accepts fuel true child else pure []
    | _ => pure []
  | .field .children f _ | .field .formatting f _ => do
    let held ← look n (.field f)
    let members ← membersWith look held
    gather (findAllIn look accepts fuel true) members
  | _ => pure []

theorem findAllIn_node : findAllIn look accepts (fuel + 1) true (.node n) = (do
    let here := if ← accepts n then [.node n] else []
    let c ← Read.node n
    let layout ← Read.lift c.layout
    let below ← gather (findSlot accepts fuel n) layout
    return here ++ below) := rfl

/-- The accepted ones of some nodes. -/
def accepted (holds : NodeId → Bool) (ms : List NodeId) : List Value := (ms.filter holds).map .node

theorem accepted_flatMap (f : α → List NodeId) (xs : List α) :
    accepted holds (xs.flatMap f) = xs.flatMap (fun x => accepted holds (f x)) := by
  induction xs with
  | nil => rfl
  | cons x xs ih =>
    simp only [accepted] at ih ⊢
    rw [List.flatMap_cons,List.filter_append,List.map_append,ih,List.flatMap_cons]

/-- A slot of a node is searched like all that lies below the nodes in it. -/
theorem findSlot_known (hc : t.Stands (t.Tree i) n c) (hdepth : i + 1 ≤ t.depth)
    (hfind : ∀ m, t.Tree i m → t.Descends everywhere n m → findAllIn look accepts fuel true (.node m) p t =
      .ok (accepted holds (t.preorder t.filled i m)) t) {slot : Slot} (hslot : slot ∈ c.kind.layout) :
    findSlot accepts fuel n slot p t =
      .ok (accepted holds ((t.hung t.filled c slot).flatMap (t.preorder t.filled i))) t := by
  have hrow : ∀ {ms : List NodeId}, (∀ m ∈ ms, t.Tree i m ∧ t.Descends everywhere n m) →
      gather (findAllIn look accepts fuel true) (ms.map .node) p t =
        .ok (accepted holds (ms.flatMap (t.preorder t.filled i))) t := by
    intro ms hms
    rw [accepted_flatMap]
    exact gather_nodes (fun m hm => hfind m (hms m hm).1 (hms m hm).2)
  cases slot with
  | constant text shown => rfl
  | field form f shown =>
    cases form with
    | text | flag => rfl
    | children | formatting =>
      obtain ⟨v,_,ms,hlook,hmembers,hhung,-⟩ := hc.listed hslot rfl
      rw [hhung,← hrow (fun m hm => hc.down hslot (by rw [hhung]; exact hm))]
      change ((liftM (look n (.field f)) : Edit Value) >>= _) p t = _
      rw [Edit.read_known hlook,Edit.read_known hmembers]
    | child =>
      obtain ⟨v,hlook,hhung,hheld⟩ := hc.single hslot
      change ((liftM (look n (.field f)) : Edit Value) >>= _) p t = _
      rw [Edit.read_known hlook,hhung]
      rcases hheld with rfl | ⟨m,rfl,below⟩
      · rfl
      · have hm := hc.down (m := m) hslot (by rw [hhung]; exact List.mem_filter.mpr ⟨List.mem_singleton_self m,rfl⟩)
        dsimp only
        rw [Edit.read_known (below.truth (by omega))]
        unfold Store.nodesOf
        cases hfilled : t.filled m with
        | true => rw [if_pos rfl,hfind m hm.1 hm.2,List.filter_cons_of_pos hfilled,List.filter_nil,List.flatMap_singleton]
        | false =>
          rw [if_neg Bool.false_ne_true,List.filter_cons_of_neg (by rw [hfilled]; exact Bool.false_ne_true)]
          rfl

theorem Store.Tree.findAll (h : t.Tree i n) (hdepth : i ≤ t.depth) (hfuel : i ≤ fuel)
    (haccepts : ∀ m, t.Descends everywhere n m → accepts m p t = .ok (holds m) t) :
    findAllIn look accepts fuel true (.node n) p t = .ok (accepted holds (t.preorder t.filled i n)) t := by
  induction i generalizing n fuel with
  | zero => exact h.elim
  | succ i ih =>
    obtain _ | fuel := fuel
    · omega
    obtain ⟨c,hc⟩ := h
    have hslots : gather (findSlot accepts fuel n) c.kind.layout p t = .ok (accepted holds
        ((t.below t.filled n).flatMap (t.preorder t.filled i))) t := by
      rw [hc.below_eq,List.flatMap_assoc,accepted_flatMap]
      refine gather_known (fun slot hslot => findSlot_known hc hdepth (fun m hm hd => ?_) hslot)
      exact ih hm (by omega) (by omega) (fun k hk => haccepts k (hd.trans hk))
    rw [findAllIn_node,Edit.run_bind,haccepts n .self]
    dsimp only
    rw [Edit.node_known hc.cell,Edit.read_known (Read.lift_ok.mpr hc.layout),Edit.run_bind,hslots]
    have haccepted : accepted holds (t.preorder t.filled (i + 1) n) = (if holds n then [.node n] else []) ++
        accepted holds ((t.below t.filled n).flatMap (t.preorder t.filled i)) := by
      unfold Store.preorder accepted
      rw [List.filter_cons]
      split <;> rfl
    rw [haccepted]
    rfl

end Searching

section Asking
variable {p : Parser} {t : Store}

theorem call_find_all {q : Query} {found : List Value} (hc : t.nodes[n.index]? = some c) (hquery : a.query t = .ok (q,true))
    (hfound : findAllIn look q.accepts t.depth true (.node n) p t = .ok found t) :
    call (.node n) "find_all" a p t = .ok (.list ⟨t.lists.size⟩) (t.addList ⟨.nodes,found,.none,none,[]⟩) := by
  have hfindAll : findAll q true (.node n) p t = .ok found t := hfound
  rw [call_node (by decide) hc rfl]
  unfold findAllCall
  rw [Edit.read_known hquery]
  dsimp only
  rw [Edit.run_bind,hfindAll]
  rfl

theorem eq_of_sublist_of_subset {xs ys : List α} (h : xs.Sublist ys) (hnodup : ys.Nodup) (hsub : ys ⊆ xs) : xs = ys :=
  h.eq_of_length_le (List.subperm_of_subset hnodup hsub).length_le

/-- Searching a node of a new document for all nodes that a query accepts, when the query has an answer for every
node there and changes nothing. It finds the accepted ones of the nodes that it meets, which are the node and
what lies below it, each once and before what lies below it, but for children that count as false and what lies
below those. None is missed if and only if no accepted node lies there. -/
theorem find_all_accepted {source : String} {s u : Store} {w : ViewId} {n : NodeId} {a : Arguments} {q : Query}
    {holds : NodeId → Bool} (h : newDocument source p s = .ok (.view w) t) (hgrows : t.Grows u) (hn : u.Member w n)
    (hquery : a.query u = .ok (q,true)) (hq : ∀ m, u.Descends everywhere n m → q.accepts m p u = .ok (holds m) u) :
    ∃ all met : List NodeId, all = u.preorder everywhere u.depth n ∧ met = u.preorder u.filled u.depth n ∧
      call (.node n) "find_all" a p u =
        .ok (.list ⟨u.lists.size⟩) (u.addList ⟨.nodes,accepted holds met,.none,none,[]⟩) ∧
      all.Nodup ∧ (∀ m, m ∈ all ↔ u.Descends everywhere n m) ∧
      met.Sublist all ∧ (∀ m, m ∈ met ↔ u.Descends u.filled n m) ∧
      (accepted holds met = accepted holds all ↔
        ∀ m, u.Descends everywhere n m → holds m = true → u.Descends u.filled n m) := by
  obtain ⟨root,height,hdoc⟩ := newDocument_rooted h
  have hdoc := hdoc.grows hgrows
  have hdepth : height ≤ u.depth := Nat.le_of_succ_le (Nat.le_of_succ_le hdoc.depth)
  have htree := hdoc.member hn
  have hall : u.preorder everywhere u.depth n = u.preorder everywhere height n := htree.preorder_eq hdepth
  have hmet : u.preorder u.filled u.depth n = u.preorder u.filled height n := htree.preorder_eq hdepth
  have hnodup : (u.preorder everywhere u.depth n).Nodup := hall ▸ htree.preorder_nodup
  have hmemAll : ∀ m, m ∈ u.preorder everywhere u.depth n ↔ u.Descends everywhere n m := by
    intro m
    rw [hall]
    exact htree.mem_preorder
  have hmemMet : ∀ m, m ∈ u.preorder u.filled u.depth n ↔ u.Descends u.filled n m := by
    intro m
    rw [hmet]
    exact htree.mem_preorder
  have hfound := htree.findAll hdepth hdepth hq
  rw [← hmet] at hfound
  obtain ⟨i,c,rfl,hc⟩ := htree.opens
  refine ⟨_,_,rfl,rfl,call_find_all hc.cell hquery hfound,hnodup,hmemAll,u.preorder_sublist _,hmemMet,?_⟩
  constructor
  · intro heq m hm hholds
    have hfilter := (List.map_injective_iff.mpr (fun _ _ h => Value.node.inj h)) heq
    have hm : m ∈ (u.preorder everywhere u.depth n).filter holds := List.mem_filter.mpr ⟨(hmemAll m).mpr hm,hholds⟩
    rw [← hfilter] at hm
    exact (hmemMet m).mp (List.mem_filter.mp hm).1
  · intro hcomplete
    refine congrArg (List.map Value.node) (eq_of_sublist_of_subset ((u.preorder_sublist _).filter holds)
      (hnodup.filter holds) (fun m hm => ?_))
    obtain ⟨hm,hholds⟩ := List.mem_filter.mp hm
    exact List.mem_filter.mpr ⟨(hmemMet m).mpr (hcomplete m ((hmemAll m).mp hm) hholds),hholds⟩

/-- The query that accepts every node. -/
def everyNode : Query := ⟨.rule ⟨.const,"",.bool true⟩,[],[]⟩

theorem sortedWords_ne_nil (word : String) (words : List String) : sortedWords (word :: words) ≠ [] := by
  have hfold : ∀ (words seen : List String), seen ≠ [] →
      words.foldl (fun seen w => if seen.contains w then seen else seen ++ [w]) seen ≠ [] := by
    intro words
    induction words with
    | nil => exact fun _ h => h
    | cons w words ih =>
      intro seen hseen
      refine ih _ ?_
      dsimp only
      split
      · exact hseen
      · simp
  have hinsert : ∀ (w : String) (words : List String), insertWord w words ≠ [] := by
    intro w words
    cases words with
    | nil => exact List.cons_ne_nil _ _
    | cons x words =>
      unfold insertWord
      split <;> exact List.cons_ne_nil _ _
  obtain ⟨w,rest,heq⟩ := List.exists_cons_of_ne_nil (hfold words [word] (List.cons_ne_nil _ _))
  change (words.foldl _ [word]).foldr insertWord [] ≠ []
  rw [heq,List.foldr_cons]
  exact hinsert w _

theorem Store.Stands.identifiers (hc : t.Stands P n c) : ∃ word words, c.identifiers = .ok (word :: words) := by
  unfold NodeCell.identifiers NodeCell.typeValue
  rw [hc.type]
  obtain ⟨word,words,heq⟩ := List.exists_cons_of_ne_nil (sortedWords_ne_nil
    (Text.lower c.kind.word) (([c.kind.className,c.kind.title,c.kind.word ++ "_"] ++ c.kind.otherWords).map Text.lower))
  exact ⟨word,words,congrArg Except.ok heq⟩

theorem agrees_rule {r : Rule} {x : Value} : agrees (.rule r) x p t = (do truth (← applyRule r x) : Edit Bool) p t := by
  obtain ⟨D,hD⟩ : ∃ D, 2 * t.depth = D + 1 := ⟨2 * t.depth - 1,by have := t.depth_pos; omega⟩
  unfold agrees
  rw [Edit.read_known (show Read.depth t = .ok t.depth from rfl),hD]
  rfl

theorem matchesAny_everyNode (word : String) (words : List String) :
    matchesAny agrees ((word :: words).map .text) everyNode.identifier p t = .ok true t := by
  have hagrees : agrees everyNode.identifier (.text word) p t = .ok true t := agrees_rule
  unfold matchesAny
  rw [Edit.read_known (show isCallable everyNode.identifier t = .ok true from rfl),if_pos rfl]
  unfold List.map anyHolds
  rw [Edit.run_bind,hagrees]
  rfl

theorem accepts_everyNode (h : t.Tree i n) (rules : List Rule) :
    Query.accepts ⟨everyNode.identifier,rules.map .rule,[]⟩ n p t =
      (do if (← allHold agrees n (rules.map .rule)) then fieldsMatch agrees n [] else pure false : Edit Bool) p t := by
  obtain ⟨i,c,rfl,hc⟩ := h.opens
  obtain ⟨word,words,hwords⟩ := hc.identifiers
  change ((liftM (Read.node n) : Edit NodeCell) >>= _) p t = _
  rw [Edit.node_known hc.cell,Edit.run_bind,Edit.lift_ok.mpr ⟨hwords,rfl⟩]
  dsimp only
  change (matchesAny agrees _ everyNode.identifier >>= _) p t = _
  rw [Edit.run_bind,matchesAny_everyNode]
  cases rules <;> rfl

theorem everyNode_accepts (h : t.Tree i n) : everyNode.accepts n p t = .ok true t := accepts_everyNode h []

/-- A parser that takes every text for a loop with a branch of no lines behind it. -/
def bareBranchParser : Parser := fun _ => .ok (.list [.record [("type",.text "while"),
  ("first_formatting",.list []),("test",nameDatum "a"),
  ("second_formatting",.list []),("third_formatting",.list []),
  ("value",.list [.record [("type",.text "pass")]]),
  ("else",.record [("type",.text "else"),("first_formatting",.list []),
    ("second_formatting",.list [spaceDatum]),("value",.list [])])]])

theorem find_all_accepted_loop : ∃ w t, newDocument "" bareBranchParser .empty = .ok (.view w) t ∧
    t.preorder everywhere t.depth ⟨0⟩ = [⟨0⟩,⟨1⟩,⟨2⟩,⟨3⟩,⟨4⟩] ∧
    call (.node ⟨0⟩) "find_all" (.ofList [everyNode.identifier]) bareBranchParser t =
      .ok (.list ⟨t.lists.size⟩) (t.addList ⟨.nodes,[.node ⟨0⟩,.node ⟨1⟩,.node ⟨2⟩],.none,none,[]⟩) := by
  have hruns : (newDocument "").ensures bareBranchParser .empty (fun v t => ⟨0⟩ ∈ t.nodesOf v ∧
      t.preorder everywhere t.depth ⟨0⟩ = [⟨0⟩,⟨1⟩,⟨2⟩,⟨3⟩,⟨4⟩] ∧ t.preorder t.filled t.depth ⟨0⟩ = [⟨0⟩,⟨1⟩,⟨2⟩]) = true := by
    decide +kernel
  obtain ⟨v,t,hdoc,horders⟩ := Edit.ensures_iff.mp hruns
  obtain ⟨w,root,height,rfl,htrees⟩ := newDocument_document hdoc
  obtain ⟨hrow,hall,hmet⟩ := of_decide_eq_true horders
  have hn : t.Member w ⟨0⟩ := ⟨⟨0⟩,hrow,.self⟩
  have hholds : ∀ m, t.Descends everywhere ⟨0⟩ m → everyNode.accepts m bareBranchParser t = .ok ((fun _ => true) m) t :=
    fun m hm => everyNode_accepts (hm.tree (htrees.member hn))
  obtain ⟨all,met,rfl,rfl,hcall,-⟩ := find_all_accepted (a := .ofList [everyNode.identifier]) (q := everyNode) hdoc
    (.refl t) hn rfl hholds
  rw [hmet] at hcall
  exact ⟨w,t,hdoc,hall,hcall⟩

end Asking

end CodeTree
