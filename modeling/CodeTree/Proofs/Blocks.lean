import CodeTree.Proofs.Changes
import CodeTree.Proofs.Commas

/-! # Text for blocks

What a text stands for in a list of lines. The lines that it describes are built anew, so moving them and adding line
ends to them changes nothing that was there before.
-/
namespace CodeTree
variable {α β : Type} {F : Freedom} {K : Store → Prop} {p : Parser} {s t : Store} {word : String} {l : ListId} {n : NodeId}
  {place : Option Attr} {parent : Value}

section New

/-- A freedom with the items of one list besides. -/
def Freedom.withList (F : Freedom) (l : ListId) : Freedom := ⟨F.attr,fun l' => l' = l ∨ F.list l',F.view⟩

theorem Freedom.le_withList (F : Freedom) (l : ListId) : F ≤ F.withList l :=
  ⟨fun _ _ h => h,fun _ h => .inr h,fun _ h => h⟩

theorem Store.Frame.forget (h : s.Frame (F.withList l) t) (hl : s.lists.size ≤ l.index) : s.Frame F t where
  node := h.node
  view := h.view
  list {l' c} hc := by
    obtain ⟨d,hd,hkeeps⟩ := h.list hc
    refine ⟨d,hd,{ hkeeps with items := fun hn => hkeeps.items ?_ }⟩
    rintro (rfl | hfree)
    · have hlt := Store.lt_lists_of_get hc
      omega
    · exact hn hfree

theorem Gives.onNew {make : Edit ListId} {rest : ListId → Edit β} {T : ListId → Store → Prop} {after : β → Store → Prop}
    (hK : Stable F K) (hmake : Within F make)
    (hnew : ∀ p s l t, make p s = .ok l t → s.lists.size ≤ l.index ∧ T l t)
    (hrest : ∀ l, (rest l).Meets (T l) (Store.Frame (F.withList l)) after) : Gives F K after (make >>= rest) := by
  intro p s hs
  have hm := hmake p s trivial
  rw [Edit.run_bind]
  cases hrun : make p s with
  | error fault t =>
    rw [hrun] at hm
    exact hm
  | ok l t =>
    rw [hrun] at hm
    obtain ⟨hsize,hT⟩ := hnew p s l t hrun
    have hr := hrest l p t hT
    dsimp only
    split
    · next a u he =>
      rw [he] at hr
      have hframe := ((hm.1.mono (F.le_withList l)).trans hr.1).forget hsize
      exact ⟨hframe,hK s u hs hframe,hr.2⟩
    · next fault u he =>
      rw [he] at hr
      exact ((hm.1.mono (F.le_withList l)).trans hr).forget hsize

end New

section Reworking
variable {R : Store → Store → Prop}

/-- A relation between stores along which lines can be moved. -/
structure Lenient (R : Store → Store → Prop) : Prop where
  refl : ∀ s, R s s
  trans : ∀ s t u, R s t → R t u → R s u
  indent : ∀ v indent, (setIndent v indent).Stays R

namespace Lenient
variable (hR : Lenient R)
include hR

theorem read (r : Read α) : (liftM r : Edit α).Stays R := Edit.Meets.read hR.refl (fun _ _ _ _ => trivial)

theorem pure (a : α) : (Pure.pure a : Edit α).Stays R := Edit.Meets.pure hR.refl (fun _ _ => trivial)

theorem throw (fault : Fault) : (MonadExcept.throw fault : Edit α).Stays R := Edit.Meets.throw hR.refl

theorem bind {x : Edit α} {f : α → Edit β} (hx : x.Stays R) (hf : ∀ a, (f a).Stays R) : (x >>= f).Stays R :=
  Edit.Meets.bind hR.trans hx hf

theorem shiftLine (shift : Shift) (v : Value) : (shiftLine shift v).Stays R :=
  hR.bind (hR.read _) (fun _ => hR.bind (Edit.Meets.lift hR.refl (fun _ _ _ _ => trivial)) (fun _ => hR.indent v _))

theorem shiftAlong (shift : Shift) (previous : Value) (done vs : List Value) :
    (shiftAlong shift previous done vs).Stays R := by
  induction vs generalizing previous done with
  | nil => exact hR.pure _
  | cons v vs ih =>
    unfold CodeTree.shiftAlong
    refine hR.bind (hR.read _) (fun isEnd => ?_)
    dsimp only
    split
    · refine hR.bind (hR.read _) (fun ends => ?_)
      split
      · exact hR.bind (hR.shiftLine shift previous) (fun _ => ih v _)
      · exact ih v done
    · exact ih v done

theorem shiftLines (shift : Shift) (inside : List Value) : (shiftLines shift inside).Stays R := by
  have hitems : ∀ previous done, (shiftItems shift previous done inside).Stays R := by
    induction inside with
    | nil => exact fun _ _ => hR.pure _
    | cons v rest ih =>
      intro previous done
      unfold shiftItems
      refine hR.bind (hR.read _) (fun order => hR.bind (hR.shiftAlong shift _ _ _) (fun r => ?_))
      obtain ⟨last,changed⟩ := r
      dsimp only
      split
      · exact hR.throw _
      · exact ih _ _
  exact hitems _ _

end Lenient

/-- What edits of a new list have in common before its lines are moved, and after it: the lines are moved once at most,
then line ends are added and the last item is indented. -/
structure Reworks (l : ListId) (inside : List Value) (before after : Edit ListId → Prop) : Prop where
  askBefore : ∀ {α : Type} {r : Read α} {f : α → Edit ListId}, (∀ a, before (f a)) → before (do f (← r))
  ask : ∀ {α : Type} {r : Read α} {f : α → Edit ListId}, (∀ a, after (f a)) → after (do f (← r))
  fail : ∀ fault, before (throw fault)
  skip : ∀ {rest}, after rest → before rest
  shift : ∀ shift {rest}, after rest → before (shiftLines shift inside >>= fun _ => rest)
  ends : ∀ k {rest}, after rest → after (addLineEnds l k >>= fun _ => rest)
  last : ∀ indent, after (do
    match (← Read.list l).items.getLast? with
    | some last => setIndent last indent; pure l
    | none => throw .outOfRange; pure l)
  done : after (pure l)

/-- The body that a text describes is built, and then its lines are moved and line ends added to it. -/
theorem blockOf_reworks {G : Edit ListId → Prop} {before after : ListId → List Value → Edit ListId → Prop}
    (hworks : ∀ l inside, Reworks l inside (before l inside) (after l inside)) {text : String}
    (hread : ∀ {α : Type} (r : Read α) (f : α → Edit ListId), (∀ a, G (f a)) → G (do f (← r)))
    (hparse : ∀ before text after keys (f : Datum → Edit ListId), (∀ d, G (f d)) →
      G (parseWithin before text after keys >>= f))
    (hbuilt : ∀ d (rest : ListId → ListCell → Edit ListId), (∀ l c, before l c.items (rest l c)) →
      G (buildList d parent place >>= fun l => do rest l (← Read.list l))) : G (blockOf n text parent place) := by
  unfold blockOf
  refine hread _ _ (fun indent => hread _ _ (fun margin => hparse _ _ _ _ _ (fun d => hbuilt d _ (fun l c => ?_))))
  have h := hworks l c.items
  have hshifted : ∀ {a b : Prop} [Decidable a] [Decidable b] (more less : Shift) {rest : Edit ListId},
      after l c.items rest → before l c.items (if a then shiftLines less c.items >>= fun _ => rest
        else if b then shiftLines more c.items >>= fun _ => rest else rest) := by
    intro a b _ _ more less rest hrest
    split
    · exact h.shift less hrest
    · split
      · exact h.shift more hrest
      · exact h.skip hrest
  dsimp only
  split
  · exact h.fail _
  refine h.askBefore (fun i => h.askBefore (fun found => hshifted _ _ (h.ask (fun gap => ?_))))
  -- A gap takes as many line ends as are missing, a line that follows its own indentation.
  split
  · refine h.ask (fun one => ?_)
    split
    · exact h.ends 1 h.done
    refine h.ask (fun two => ?_)
    split
    · exact h.ends 2 h.done
    refine h.ask (fun three => ?_)
    split
    · exact h.ends 3 h.done
    · exact h.done
  · have hindented := h.ask (r := indentOf n) (fun indent => h.last indent)
    refine h.ask (fun next => h.ask (fun more => ?_))
    split
    · refine h.ask (fun two => ?_)
      split
      · exact h.ends 1 hindented
      refine h.ask (fun three => ?_)
      split
      · exact h.ends 2 hindented
      · exact hindented
    · exact h.done

/-- What is done to a new list leads along a relation and gives the list back. -/
def Finishes (R : Store → Store → Prop) (l : ListId) (e : Edit ListId) : Prop :=
  e.Meets (fun _ => True) R (fun l' _ => l' = l)

namespace Finishes
variable (hR : Lenient R)
include hR

theorem done : Finishes R l (pure l) := Edit.Meets.pure hR.refl (fun _ _ => rfl)

theorem throw (fault : Fault) : Finishes R l (MonadExcept.throw fault) := Edit.Meets.throw hR.refl

theorem ask {r : Read α} {f : α → Edit ListId} (h : ∀ a, Finishes R l (f a)) : Finishes R l (do f (← r)) :=
  Edit.Meets.ask hR.refl (fun _ a _ _ => h a)

theorem next {e : Edit α} {rest : α → Edit ListId} (he : e.Stays R) (h : ∀ a, Finishes R l (rest a)) :
    Finishes R l (e >>= rest) :=
  Edit.Meets.bind hR.trans he h

end Finishes

theorem lenient_reworks (hR : Lenient R) (hends : ∀ k, (addLineEnds l k).Stays R) (inside : List Value) :
    Reworks l inside (Finishes R l) (Finishes R l) := by
  refine ⟨.ask hR,.ask hR,.throw hR,id,fun shift _ h => .next hR (hR.shiftLines shift inside) (fun _ => h),
    fun k _ h => .next hR (hends k) (fun _ => h),fun indent => .ask hR (fun c => ?_),.done hR⟩
  split
  · exact .next hR (hR.indent _ _) (fun _ => .done hR)
  · exact .next hR (hR.throw _) (fun _ => .done hR)

end Reworking

section Extending
variable {grows : Prop} {u : Store}

/-- A node stays of its kind and type, and where it hangs. -/
structure NodeCell.Alike (c d : NodeCell) : Prop where
  kind : d.kind = c.kind
  parent : d.parent = c.parent
  place : d.place = c.place
  type : d.stored? (.field .type) = c.stored? (.field .type)

/-- A line end that nothing holds. -/
def Store.LooseEnd (s : Store) (x : Value) : Prop :=
  ∃ m c, x = .node m ∧ s.nodes[m.index]? = some c ∧ c.kind = .endl ∧ c.stored? (.field .type) = some (.text "endl") ∧
    c.parent = .none ∧ c.place = none

/-- All nodes stay what they are and where they hang, and line ends that nothing holds are added to a list, if they may
be. -/
structure Store.Extends (grows : Prop) (l : ListId) (s t : Store) : Prop where
  node : ∀ {m : NodeId} {c}, s.nodes[m.index]? = some c → ∃ d, t.nodes[m.index]? = some d ∧ c.Alike d
  list : ∀ {c}, s.lists[l.index]? = some c → ∃ d ends, t.lists[l.index]? = some d ∧ d.flavour = c.flavour ∧
    d.parent = c.parent ∧ d.place = c.place ∧ d.items = c.items ++ ends ∧ (∀ x ∈ ends, t.LooseEnd x) ∧ (ends ≠ [] → grows)

theorem NodeCell.Alike.refl (c : NodeCell) : c.Alike c := ⟨rfl,rfl,rfl,rfl⟩

theorem Store.LooseEnd.extends {x : Value} (h : s.LooseEnd x) (hst : s.Extends grows l t) : t.LooseEnd x := by
  obtain ⟨m,c,rfl,hc,hkind,htype,hparent,hplace⟩ := h
  obtain ⟨d,hd,halike⟩ := hst.node hc
  exact ⟨m,d,rfl,hd,halike.kind.trans hkind,halike.type.trans htype,halike.parent.trans hparent,halike.place.trans hplace⟩

theorem Store.Extends.trans (h : s.Extends grows l t) (h' : t.Extends grows l u) : s.Extends grows l u where
  node hc := by
    obtain ⟨d,hd,ha⟩ := h.node hc
    obtain ⟨e,he,hb⟩ := h'.node hd
    exact ⟨e,he,hb.kind.trans ha.kind,hb.parent.trans ha.parent,hb.place.trans ha.place,hb.type.trans ha.type⟩
  list hc := by
    obtain ⟨d,ends,hd,hflavour,hparent,hplace,hitems,hends,hgrows⟩ := h.list hc
    obtain ⟨e,more,he,hflavour',hparent',hplace',hitems',hmore,hgrows'⟩ := h'.list hd
    refine ⟨e,ends ++ more,he,hflavour'.trans hflavour,hparent'.trans hparent,hplace'.trans hplace,?_,?_,?_⟩
    · rw [hitems',hitems,List.append_assoc]
    · intro x hx
      rcases List.mem_append.mp hx with hx | hx
      · exact (hends x hx).extends h'
      · exact hmore x hx
    · intro hne
      by_cases hnil : ends = []
      · apply hgrows'
        simpa [hnil] using hne
      · exact hgrows hnil

theorem Store.Extends.of_node (hnode : ∀ {m : NodeId} {c}, s.nodes[m.index]? = some c →
      ∃ d, t.nodes[m.index]? = some d ∧ c.Alike d)
    (hlist : ∀ {c}, s.lists[l.index]? = some c → ∃ d, t.lists[l.index]? = some d ∧ d.flavour = c.flavour ∧
      d.parent = c.parent ∧ d.place = c.place ∧ d.items = c.items) : s.Extends grows l t where
  node := hnode
  list hc := by
    obtain ⟨d,hd,hflavour,hparent,hplace,hitems⟩ := hlist hc
    exact ⟨d,[],hd,hflavour,hparent,hplace,by rw [hitems,List.append_nil],by simp,by simp⟩

theorem Store.Extends.refl (s : Store) : s.Extends grows l s :=
  .of_node (fun h => ⟨_,h,.refl _⟩) (fun h => ⟨_,h,rfl,rfl,rfl,rfl⟩)

theorem Store.Grows.extends (h : s.Grows t) : s.Extends grows l t :=
  .of_node (fun hc => ⟨_,(h.nodes _ (Store.lt_nodes_of_get hc)).trans hc,.refl _⟩)
    (fun hc => ⟨_,(h.lists _ (Store.lt_lists_of_get hc)).trans hc,rfl,rfl,rfl,rfl⟩)

theorem Store.extends_mapNode {f : NodeCell → NodeCell} (hf : ∀ c : NodeCell, c.Alike (f c)) :
    s.Extends grows l (s.mapNode n f) := by
  refine .of_node (fun {m c} hc => ?_) (fun h => ⟨_,h,rfl,rfl,rfl,rfl⟩)
  rw [Store.mapNode_get,hc]
  split
  · exact ⟨f c,rfl,hf c⟩
  · exact ⟨c,rfl,.refl c⟩

theorem lenient_extends : Lenient (Store.Extends grows l) where
  refl := Store.Extends.refl
  trans _ _ _ := Store.Extends.trans
  indent v indent := by
    have hput : ∀ n v, (putAttr n (.field .indent) v).Stays (Store.Extends grows l) := fun n v p s _ =>
      ⟨Store.extends_mapNode (fun c => ⟨rfl,rfl,rfl,NodeCell.stored_put_of_ne (by simp)⟩),trivial⟩
    have hread : ∀ {α : Type} {r : Read α} {f : α → Edit Unit}, (∀ a, (f a).Stays (Store.Extends grows l)) →
        (do f (← r) : Edit Unit).Stays (Store.Extends grows l) :=
      fun h => Edit.Meets.ask Store.Extends.refl (fun _ a _ _ => h a)
    unfold setIndent
    cases v with
    | node n =>
      refine hread (fun c => ?_)
      split
      · exact hread (fun _ => hput _ _)
      · exact hput _ _
    | list l' =>
      refine hread (fun c => ?_)
      split
      · refine fun p s _ => ⟨.of_node (fun h => ⟨_,h,.refl _⟩) (fun {c} hc => ?_),trivial⟩
        change ∃ d, (s.mapList l' _).lists[l.index]? = _ ∧ _
        rw [Store.mapList_get,hc]
        split
        · exact ⟨_,rfl,rfl,rfl,rfl,rfl⟩
        · exact ⟨_,rfl,rfl,rfl,rfl,rfl⟩
      · exact Edit.Meets.throw Store.Extends.refl
    | view w => exact fun p s _ => ⟨.of_node (fun h => ⟨_,h,.refl _⟩) (fun h => ⟨_,h,rfl,rfl,rfl,rfl⟩),trivial⟩
    | _ => exact Edit.Meets.throw Store.Extends.refl

theorem lineEnd_loose (h : build (lineEnd "") .none none p s = .ok n t) : t.LooseEnd (.node n) := by
  obtain ⟨fields,k,c,hfields,hg⟩ := (Kept.of_run h).grown
  obtain rfl : k = .endl := by
    have hnamed := hg.named
    cases hfields
    have hword : Kind.word k = "endl" := by simpa [lookupLast] using hnamed.symm
    have hknown := hg.known
    rw [hword] at hknown
    exact (Option.some.inj hknown).symm
  exact ⟨n,c,rfl,hg.cell,hg.kind,hg.type,hg.parent,hg.place⟩

theorem addLineEnds_extends (hgrows : grows) (k : Nat) : (addLineEnds l k).Stays (Store.Extends grows l) := by
  induction k with
  | zero => exact lenient_extends.pure _
  | succ k ih =>
    unfold addLineEnds
    have hbuild : (build (lineEnd "") .none none).Meets (fun _ => True) (Store.Extends grows l)
        (fun n s => s.LooseEnd (.node n)) := by
      intro p s _
      have hadds := build_adds (lineEnd "") .none none p s trivial
      split
      · next n t hrun =>
        rw [hrun] at hadds
        exact ⟨hadds.1.extends,lineEnd_loose hrun⟩
      · next fault t hrun =>
        rw [hrun] at hadds
        exact Store.Grows.extends hadds
    refine Edit.Meets.bind lenient_extends.trans hbuild (fun n => ?_)
    have hput : (Edit.updateList l (fun c => { c with items := c.items ++ [.node n] })).Meets
        (fun s => s.LooseEnd (.node n)) (Store.Extends grows l) (fun _ _ => True) := by
      intro p s hn
      refine ⟨⟨fun h => ⟨_,h,.refl _⟩,fun {c} hc => ?_⟩,trivial⟩
      refine ⟨{ c with items := c.items ++ [.node n] },[.node n],?_,rfl,rfl,rfl,rfl,?_,fun _ => hgrows⟩
      · change (s.mapList l _).lists[l.index]? = _
        rw [Store.mapList_get,if_pos rfl,hc]
        rfl
      · intro x hx
        rw [List.mem_singleton.mp hx]
        exact hn
    exact Edit.Meets.bind lenient_extends.trans hput (fun _ => ih)

end Extending

/-- A list of nodes that go by the type of a separator only if they are one. -/
def Store.TellingList (word : String) (s : Store) (l : ListId) : Prop :=
  ∃ xs, s.HasItems l .nodes xs ∧ ∀ x ∈ xs, s.Tells word x

theorem Store.TellingList.tellers (h : s.TellingList word l) : s.Tellers word l := by
  obtain ⟨xs,⟨c,hc,-,hitems⟩,hxs⟩ := h
  intro d hd
  cases hc.symm.trans hd
  rwa [hitems]

section Frames

theorem addLineEnds_within (k : Nat) : Within (F.withList l) (addLineEnds l k) := by
  induction k with
  | zero => exact .pure _
  | succ k ih =>
    exact .bind (.of_adds (build_adds _ _ _)) (fun _ => .bind (.updateItems (Or.inl rfl) _) (fun _ => ih))

theorem Store.TellingList.extends {grows : Prop} (h : s.TellingList word l) (hst : s.Extends grows l t) :
    t.TellingList word l := by
  obtain ⟨xs,⟨c,hc,hflavour,rfl⟩,hxs⟩ := h
  obtain ⟨d,ends,hd,hflavour',-,-,hitems,hends,-⟩ := hst.list hc
  refine ⟨d.items,⟨d,hd,hflavour'.trans hflavour,rfl⟩,fun x hx => ?_⟩
  rw [hitems] at hx
  rcases List.mem_append.mp hx with hx | hx
  · obtain ⟨k,type,⟨m,c,rfl,hc,hk,htype⟩,hword⟩ := hxs x hx
    obtain ⟨d,hd,halike⟩ := hst.node hc
    exact ⟨k,type,⟨m,d,rfl,hd,halike.kind.trans hk,halike.type.trans htype⟩,hword⟩
  · obtain ⟨m,c,rfl,hc,hk,htype,-,-⟩ := hends x hx
    exact ⟨.endl,.text "endl",⟨m,c,rfl,hc,hk,htype⟩,fun _ => rfl⟩

theorem Lenient.and {R R' : Store → Store → Prop} (h : Lenient R) (h' : Lenient R') :
    Lenient (fun s t => R s t ∧ R' s t) where
  refl s := ⟨h.refl s,h'.refl s⟩
  trans _ _ _ h₁ h₂ := ⟨h.trans _ _ _ h₁.1 h₂.1,h'.trans _ _ _ h₁.2 h₂.2⟩
  indent v indent := (h.indent v indent).and (h'.indent v indent)

theorem lenient_frame (hfree : ∀ n, F.attr n (.field .indent)) : Lenient (Store.Frame F) where
  refl := Store.Frame.refl F
  trans _ _ _ := Store.Frame.trans
  indent _ indent := Within.setIndent (fun n _ => hfree n) indent

theorem buildList_telling (hw : Separating word) {d : Datum} (h : buildList d parent place p s = .ok l t) :
    s.lists.size ≤ l.index ∧ t.TellingList word l := by
  have hhonest := buildList_honest h
  obtain ⟨hle,ms,_,_,hcell,-⟩ := buildList_kept h
  exact ⟨hle,ms,⟨_,hcell,rfl,rfl⟩,fun x hx => (hhonest _ hcell x hx).tells hw⟩

theorem blockOf_gives (hw : Separating word) (hfree : ∀ n, F.attr n (.field .indent)) (hK : Stable F K) (n : NodeId)
    (text : String) (parent : Value) (place : Option Attr) :
    Gives F K (fun l s => s.Tellers word l) (blockOf n text parent place) := by
  let R (l : ListId) (s t : Store) : Prop := s.Frame (F.withList l) t ∧ s.Extends True l t
  have hworks : ∀ l inside, Reworks l inside (Finishes (R l) l) (Finishes (R l) l) := fun l inside =>
    lenient_reworks ((lenient_frame (F := F.withList l) hfree).and lenient_extends)
      (fun k => Edit.Stays.and (addLineEnds_within k) (addLineEnds_extends trivial k)) inside
  refine blockOf_reworks hworks (fun _ _ h => .ask (fun _ a _ _ => h a))
    (fun _ _ _ _ _ h => .first hK (.parseWithin _ _ _ _) h) (fun d rest hrest => ?_)
  refine .onNew (T := fun l s => s.TellingList word l) hK (.buildList _ _ _) (fun _ _ _ _ h => buildList_telling hw h)
    (fun l p s hs => ?_)
  have hm := (hworks l []).ask (r := Read.list l) (fun c => hrest l c) p s trivial
  split
  · next a t he =>
    rw [he] at hm
    obtain ⟨⟨hframe,hextends⟩,rfl⟩ := hm
    exact ⟨hframe,(hs.extends hextends).tellers⟩
  · next fault t he =>
    rw [he] at hm
    exact hm.1

end Frames

end CodeTree
