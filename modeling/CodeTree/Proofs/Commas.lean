import CodeTree.Proofs.Converting
import CodeTree.Proofs.Scans
import CodeTree.Proofs.Settling

/-! # Items between commas

What is expected in a list of items between commas, and what becomes of the formatting after a comma
that is kept: in flat style it is one space in the end.
-/
namespace CodeTree
variable {F : Freedom} {K : Store → Prop} {p : Parser} {s t : Store} {d : Datum} {pairs : List (Value × Value)}
  {xs es : List Value} {l : ListId} {c e : NodeCell} {n m : NodeId} {place : Option Attr} {r : Unit} {parent v : Value}

/-- A list of nodes. -/
def Store.NodeList (s : Store) (l : ListId) : Prop :=
  ∃ xs, s.HasItems l .nodes xs ∧ ∀ x ∈ xs, ∃ m, x = .node m

theorem movable_of_nodes (hxs : ∀ x ∈ xs, ∃ m, x = .node m) : ∀ x ∈ xs, x.movable = true := by
  intro x hx
  obtain ⟨m,rfl⟩ := hxs x hx
  rfl

theorem stable_nodeList (hl : ¬ F.list l) : Stable F (fun s => s.NodeList l) := by
  rintro s t ⟨xs,hitems,hxs⟩ hF
  exact ⟨xs,hitems.frame hF hl,hxs⟩

theorem Store.NodeList.frame (h : s.NodeList l) (hF : s.Frame F t) (hl : ¬ F.list l) : t.NodeList l := stable_nodeList hl s t h hF

theorem buildList_items (h : buildList d parent place p s = .ok l t) : t.NodeList l := by
  have hhonest := buildList_honest h
  obtain ⟨-,ms,_,_,hget,-⟩ := buildList_kept h
  refine ⟨ms,⟨_,hget,rfl,rfl⟩,fun x hx => ?_⟩
  obtain ⟨_,⟨m,_,rfl,-⟩,-⟩ := hhonest _ hget x hx
  exact ⟨m,rfl⟩

section Formatting

theorem ofWord_formatting : Attr.ofWord "second_formatting" = .field .secondFormatting := by decide +kernel

theorem properties_formatting : (nodeProperties.lookup "second_formatting").isSome = false := by rfl

theorem assigned_field (k : Kind) (f : Field) : k.assigned (.field f) = .field f := by
  cases k <;> rfl

theorem prepareStore_formatting (n : NodeId) (k : Kind) (v : Value) :
    prepareStore n k (.field .secondFormatting) v = pure v := by
  cases k <;> rfl

theorem viewForm_formatting (k : Kind) : k.viewForm .secondFormatting = none := by
  cases k <;> rfl

theorem wrapHeld_formatting (n : NodeId) : Within F (wrapHeld n (.field .secondFormatting)) := by
  unfold wrapHeld
  refine .bind (.read _) (fun c => ?_)
  dsimp only
  rw [viewForm_formatting]
  exact .pure _

variable (hK : Stable F K) {l : ListId} {xs : List Value} (hlist : ∀ s, K s → s.HasItems l .nodes xs)
  (hxs : ∀ x ∈ xs, x.movable = true)
include hK hlist hxs

theorem listFor_nodes_gives (n : NodeId) (parent : Value) (place : Option Attr) :
    Gives F K (fun v _ => v = .list l) (listFor (.node n) (.list l) parent place) := by
  unfold listFor listFrom
  refine .ask (fun s c hs hc => ?_)
  obtain ⟨d,hd,hflavour,rfl⟩ := hlist s hs
  cases (Read.list_ok.mp hc).symm.trans hd
  rw [hflavour]
  exact .first hK (.setHolders hxs _ _) (fun _ => .pure (fun _ _ => rfl))

theorem assignNode_formatting_gives (hfree : F.attr n (.field .secondFormatting)) :
    Gives F K (fun _ _ => True) (assignNode n "second_formatting" (.list l)) := by
  have hput : ∀ v, Within F (putAttr n (.field .secondFormatting) v) := fun v => .putAttr hfree v
  have hconverted : Gives F K (fun _ _ => True) (assignConverted n (.field .secondFormatting) (.list l)) := by
    unfold assignConverted
    refine .ask (fun s c hs hc => ?_)
    dsimp only
    split
    · exact .of_within hK (hput _) (fun _ _ _ _ _ _ => trivial)
    split
    · exact .of_within hK (.bind (.read _) (fun v => hput v)) (fun _ _ _ _ _ _ => trivial)
    split
    · exact .throw _
    split
    · refine .bind (listFor_nodes_gives hK hlist hxs n _ _) (fun v => ?_)
      exact .of_within (hK.and (fun _ _ h _ => h)) (hput v) (fun _ _ _ _ _ _ => trivial)
    · exact .of_within hK (hput _) (fun _ _ _ _ _ _ => trivial)
  unfold assignNode
  refine .ask (fun s c hs hc => ?_)
  dsimp only
  rw [ofWord_formatting,assigned_field,prepareStore_formatting,pure_bind,properties_formatting]
  refine .bind hconverted (fun _ => ?_)
  exact .of_within (hK.and (fun _ _ h _ => h)) (wrapHeld_formatting n) (fun _ _ _ _ _ _ => trivial)

theorem assign_formatting_gives (hfree : ∀ n, v = .node n → F.attr n (.field .secondFormatting)) :
    Gives F K (fun _ _ => True) (assign v "second_formatting" (.list l)) := by
  have hextra : ∀ extra : List (String × Value), (putPair "second_formatting" (.list l) extra).lookup "parent" =
      extra.lookup "parent" := fun extra => lookup_putPair ..
  unfold assign
  cases v with
  | node n => exact assignNode_formatting_gives hK hlist hxs (hfree n rfl)
  | list l' =>
    refine .ask (fun s c _ _ => .ask (fun s b _ _ => ?_))
    split
    · exact .throw _
    · refine .of_within hK (fun _ s _ => ?_) (fun _ _ _ _ _ _ => trivial)
      exact ⟨Store.frame_mapList (fun c => ⟨rfl,rfl,rfl,hextra _,fun _ => rfl⟩),trivial⟩
  | view w =>
    refine .ask (fun s b _ _ => ?_)
    split
    · exact .throw _
    · refine .of_within hK (fun _ s _ => ?_) (fun _ _ _ _ _ _ => trivial)
      exact ⟨Store.frame_mapView (fun c => ⟨rfl,rfl,rfl,rfl,rfl,hextra _,fun _ => rfl⟩),trivial⟩
  | _ => exact .throw _

omit hlist hxs in
theorem assign_nodeList_gives (hfree : ∀ n, v = .node n → F.attr n (.field .secondFormatting)) (hl : ¬ F.list l) :
    Gives F (fun s => K s ∧ s.NodeList l) (fun _ _ => True)
      (assign v "second_formatting" (.list l)) := by
  intro p s hs
  obtain ⟨hs,xs,hitems,hxs⟩ := hs
  have hgives := assign_formatting_gives (hK.and (stable_hasItems hl .nodes xs)) (fun _ h => h.2) (movable_of_nodes hxs) hfree
  exact Edit.Meets.weaken hgives (fun _ h => h) (fun _ _ h => ⟨⟨h.1.1,xs,h.1.2,hxs⟩,h.2⟩) p s ⟨hs,hitems⟩

omit hlist hxs in
theorem reformat_gives {β : Type} {after : β → Store → Prop} {make : Edit ListId} {holder : Read Value} {rest : Edit β}
    (hmake : Gives F K (fun l s => s.NodeList l) make)
    (hfree : ∀ s n, K s → holder s = .ok (.node n) → F.attr n (.field .secondFormatting)) (hl : ∀ l, ¬ F.list l)
    (hrest : Gives F K after rest) :
    Gives F K after (do
      let l ← make
      assign (← holder) "second_formatting" (.list l)
      rest) := by
  refine .bind hmake (fun l => .ask (fun s v hs hv => ?_))
  refine .bind (assign_nodeList_gives hK (fun n hn => hfree s n hs.1 (hn ▸ hv)) (hl l)) (fun _ => ?_)
  exact (hrest.and (stable_nodeList (hl l))).and (fun _ _ h _ => h)

end Formatting

section Spacing
variable {v : Value}

/-- A comma as it is built. -/
structure NodeCell.IsComma (c : NodeCell) : Prop where
  kind : c.kind = .comma
  building : c.building = false
  texts : c.texts = [.type]
  lists : c.lists = [.firstFormatting,.secondFormatting]
  children : c.children = []
  type : c.stored? (.field .type) = some (.text "comma")
  after : (c.stored? (.field .secondFormatting)).isSome = true

/-- A single space. -/
structure NodeCell.IsSpace (c : NodeCell) : Prop where
  kind : c.kind = .space
  texts : c.texts = [.type,.value]
  lists : c.lists = []
  children : c.children = []
  type : c.stored? (.field .type) = some (.text "space")
  value : c.stored? (.field .value) = some (.text " ")

def Store.Comma (s : Store) (v : Value) : Prop := ∃ n c, v = .node n ∧ s.nodes[n.index]? = some c ∧ c.IsComma

/-- A node that holds one space after it in a list. -/
def Store.SpacedBy (s : Store) (l : ListId) (v : Value) : Prop :=
  ∃ n c d m e, v = .node n ∧ s.nodes[n.index]? = some c ∧ c.building = false ∧
    c.stored? (.field .secondFormatting) = some (.list l) ∧ s.lists[l.index]? = some d ∧ d.items = [.node m] ∧
    s.nodes[m.index]? = some e ∧ e.IsSpace

/-- A node with one space after it. -/
def Store.Spaced (s : Store) (v : Value) : Prop := ∃ l, s.SpacedBy l v

/-- A comma with one space after it, which it does not hold in a given list. -/
def Store.SpacedComma (s : Store) (l : ListId) (v : Value) : Prop := s.Comma v ∧ ∃ l', l' ≠ l ∧ s.SpacedBy l' v

theorem Store.Comma.frame (h : s.Comma v) (hF : s.Frame F t) (ht : F.KeepsTypes) : t.Comma v := by
  obtain ⟨n,c,rfl,hc,hcomma⟩ := h
  obtain ⟨d,hd,hkeeps⟩ := hF.node hc
  exact ⟨n,d,rfl,hd,hkeeps.kind.trans hcomma.kind,hkeeps.building.trans hcomma.building,
    hkeeps.texts.trans hcomma.texts,hkeeps.lists.trans hcomma.lists,hkeeps.children.trans hcomma.children,
    (hkeeps.stored _ (ht n)).trans hcomma.type,hkeeps.present _ hcomma.after⟩

theorem Store.Comma.goes (h : s.Comma v) : s.Goes v .comma (.text "comma") := by
  obtain ⟨n,c,rfl,hc,hcomma⟩ := h
  exact ⟨n,c,rfl,hc,hcomma.kind,hcomma.type⟩

theorem Store.SpacedBy.frame (h : s.SpacedBy l v) (hF : s.Frame F t)
    (hfree : ∀ n a, F.attr n a → a = .field .secondFormatting ∧ v ≠ .node n) (hl : ¬ F.list l) : t.SpacedBy l v := by
  obtain ⟨n,c,d,m,e,rfl,hc,hb,hv,hd,hitems,he,hspace⟩ := h
  obtain ⟨c',hc',hkeeps⟩ := hF.node hc
  obtain ⟨d',hd',hkeepsl⟩ := hF.list hd
  obtain ⟨e',he',hkeepse⟩ := hF.node he
  have hother : ∀ a, a ≠ .field .secondFormatting → e'.stored? a = e.stored? a :=
    fun a ha => hkeepse.stored a (fun h => ha (hfree m a h).1)
  refine ⟨n,c',d',m,e',rfl,hc',hkeeps.building.trans hb,?_,hd',(hkeepsl.items hl).trans hitems,he',?_⟩
  · rw [hkeeps.stored _ (fun h => (hfree n _ h).2 rfl),hv]
  · exact ⟨hkeepse.kind.trans hspace.kind,hkeepse.texts.trans hspace.texts,hkeepse.lists.trans hspace.lists,
      hkeepse.children.trans hspace.children,(hother _ (by decide)).trans hspace.type,
      (hother _ (by decide)).trans hspace.value⟩

theorem Store.Spaced.frame (h : s.Spaced v) (hF : s.Frame F t)
    (hfree : ∀ n a, F.attr n a → a = .field .secondFormatting ∧ v ≠ .node n) (hl : ∀ l, ¬ F.list l) : t.Spaced v := by
  obtain ⟨l,h⟩ := h
  exact ⟨l,h.frame hF hfree (hl l)⟩

theorem Store.SpacedComma.frame (h : s.SpacedComma l v) (hF : s.Frame F t) (hattr : ∀ n a, ¬ F.attr n a)
    (hl : ∀ l', l' ≠ l → ¬ F.list l') : t.SpacedComma l v := by
  obtain ⟨hcomma,l',hne,hspaced⟩ := h
  exact ⟨hcomma.frame hF (fun n => hattr n _),l',hne,hspaced.frame hF (fun n a h => absurd h (hattr n a)) (hl l' hne)⟩

theorem ofWord_comma : Kind.ofWord? "comma" = some .comma := by decide +kernel

theorem ofWord_space : Kind.ofWord? "space" = some .space := by decide +kernel

theorem separating_comma : Separating "comma" := by
  intro k hk
  rw [ofWord_comma] at hk
  cases hk
  rfl

section Built
variable {a b : Mark} {n : NodeId} {parent : Value} {place : Option Attr}

theorem Grown.kind_eq {fields : List (String × Datum)} {k k' : Kind} {word : String}
    (h : Grown p t a b n parent place fields k c) (htype : lookupLast "type" fields = some (.text word))
    (hword : Kind.ofWord? word = some k') : k = k' := by
  have hk : k.word = word := Datum.text.inj (Option.some.inj (h.named.symm.trans htype))
  have hknown := h.known
  rw [hk,hword] at hknown
  exact (Option.some.inj hknown).symm

theorem Kept.space (h : Kept (build spaceDatum parent place) p a b n t) :
    ∃ c, t.nodes[n.index]? = some c ∧ c.IsSpace := by
  obtain ⟨fields,k,c,hd,hg⟩ := h.grown
  cases hd
  obtain rfl := hg.kind_eq (by rfl) ofWord_space
  have hslot : .field .text .value .always ∈ Kind.layout .space := by decide
  obtain ⟨d,v,_,_,hd,hv,-,-,hh⟩ := hg.slot (by decide) hslot
  have hr : respaced .space [("type",Datum.text "space"),("value",.text " ")] .value = none := by rfl
  rw [Slotted,hr] at hh
  cases hd
  refine ⟨c,hg.cell,hg.kind,hg.texts.trans (by rfl),hg.lists.trans (by rfl),hg.children.trans (by rfl),hg.type,?_⟩
  rw [hv]
  exact congrArg some hh

/-- The list after a comma that was built. -/
theorem Grown.spaced {fields : List (String × Datum)} (hg : Grown p t a b n parent place fields .comma c) :
    ∃ d x e ms, lookupLast "second_formatting" fields = some d ∧ c.stored? (.field .secondFormatting) = some (.list ⟨e.lists⟩) ∧
      a.nodes < x.nodes ∧ a.lists ≤ x.lists ∧ Kept (buildItems d (.node n) (some (.field .secondFormatting))) p x e ms t ∧
      t.lists[e.lists]? = some ⟨.nodes,ms,.node n,some (.field .secondFormatting),[]⟩ := by
  have hslot : .field .formatting .secondFormatting .always ∈ Kind.layout .comma := by decide
  obtain ⟨d,v,x,y,hd,hv,hx,-,hh⟩ := (hg.sections (by decide)).slot (layout_nodup _) hslot
  have hh : Holds p t n .comma .formatting .secondFormatting d x y v := hh
  obtain ⟨ms,e,-,hkept,-,hl,hform⟩ := hh
  obtain rfl : v = .list ⟨e.lists⟩ := hform
  exact ⟨d,x,e,ms,hd,hv,hx.1,hx.2.1,hkept,hl⟩

theorem Grown.comma {fields : List (String × Datum)} (hg : Grown p t a b n parent place fields .comma c) :
    c.IsComma ∧ ∃ l, c.stored? (.field .secondFormatting) = some (.list l) ∧ t.NodeList l := by
  obtain ⟨_,_,_,ms,-,hv,-,-,hkept,hl⟩ := hg.spaced
  refine ⟨⟨hg.kind,hg.building,hg.texts.trans (by rfl),hg.lists.trans (by rfl),hg.children.trans (by rfl),hg.type,by rw [hv]; rfl⟩,
    _,hv,ms,⟨_,hl,rfl,rfl⟩,fun x hx => ?_⟩
  obtain ⟨ds,hrow,-⟩ := hkept.items
  obtain ⟨_,⟨m,_,rfl,-⟩,-⟩ := hrow.all_honest x hx
  exact ⟨m,rfl⟩

theorem Kept.comma {after : Datum} (h : Kept (build (commaDatum after) parent place) p a b n t) :
    t.Comma (.node n) := by
  obtain ⟨fields,k,c,hd,hg⟩ := h.grown
  cases hd
  obtain rfl := hg.kind_eq (by rfl) ofWord_comma
  exact ⟨n,c,rfl,hg.cell,hg.comma.1⟩

theorem Kept.spaced (h : Kept (build (commaDatum spaceDatum) parent place) p a b n t) :
    ∃ l, a.lists ≤ l.index ∧ t.SpacedBy l (.node n) := by
  obtain ⟨fields,k,c,hd,hg⟩ := h.grown
  cases hd
  obtain rfl := hg.kind_eq (by rfl) ofWord_comma
  obtain ⟨_,_,e,ms,hd,hv,-,hx,hkept,hl⟩ := hg.spaced
  cases hd
  have hle : a.lists ≤ e.lists := Nat.le_trans hx (hkept.le (buildItems_adds _ _ _)).2.1
  obtain ⟨ds,hrow,hds⟩ := hkept.items
  obtain rfl : ds = [spaceDatum] := by
    rcases hds with hds | ⟨-,hds | hds⟩
    · exact (Datum.list.inj hds).symm
    · cases hds
    · cases hds
  obtain ⟨m,rest,e',rfl,hm,hrest,-,-⟩ := hrow.cons
  obtain rfl := hrest.nil
  obtain ⟨d,hd,hspace⟩ := hm.space
  exact ⟨⟨e.lists⟩,hle,n,c,_,m,d,rfl,hg.cell,hg.building,hv,hl,rfl,hd,hspace⟩

end Built

/-- What follows a node is one space and nothing else. -/
def Store.FollowedBySpace (s : Store) (v : Value) : Prop :=
  ∃ held space, attr v "second_formatting" s = .ok held ∧ items held s = .ok [space] ∧ snapshot space s = .ok spaceDatum

theorem NodeCell.IsSpace.snapshot (hspace : e.IsSpace) (he : s.nodes[m.index]? = some e) (fuel : Nat) :
    snapshotAt (fuel + 1) (.node m) s = .ok spaceDatum := by
  have hsnapshot := snapshot_fields fuel (fun f => if f = .type then .text "space" else .text " ") he
    (by rw [hspace.kind]; decide) ?_ (by simp [hspace.lists]) (by simp [hspace.children])
  · rw [hsnapshot,hspace.texts,hspace.lists,hspace.children]
    rfl
  · intro f hf
    rw [hspace.texts,List.mem_cons,List.mem_singleton] at hf
    rcases hf with rfl | rfl
    · exact ⟨_,hspace.type,rfl⟩
    · exact ⟨_,hspace.value,rfl⟩

theorem Store.Spaced.followed (h : s.Spaced v) : s.FollowedBySpace v := by
  obtain ⟨l,n,c,d,m,e,rfl,hc,-,hv,hd,hitems,he,hspace⟩ := h
  refine ⟨.list l,.node m,attr_stored hc hv,?_,?_⟩
  · simp only [items,itemsWith,Read.bind_ok,Read.list_ok,Read.pure_ok]
    exact ⟨d,hd,hitems⟩
  · unfold snapshot
    simp only [Read.bind_ok,Read.depth_ok,exists_eq_left']
    exact hspace.snapshot he _

end Spacing

section Expected
variable {P : Store → Value → Prop}

/-- Every item of one list with a separator after it. -/
inductive Followed (P : Value → Prop) : List Value → List Value → Prop
  | nil : Followed P [] []
  | cons {x e : Value} {xs es : List Value} : P e → Followed P xs es → Followed P (x :: xs) (x :: e :: es)

theorem Followed.imp {P Q : Value → Prop} (h : Followed P xs es) (hPQ : ∀ v, P v → Q v) : Followed Q xs es := by
  induction h with
  | nil => exact .nil
  | cons he _ ih => exact .cons (hPQ _ he) ih

theorem Followed.last {P : Value → Prop} {e : Value} (h : Followed P xs es) (he : es.getLast? = some e) : P e := by
  induction h with
  | nil => cases he
  | @cons x e' xs es hP rest ih =>
    cases rest with
    | nil => exact Option.some.inj he ▸ hP
    | cons => exact ih he

theorem newSeparator_gives (hK : Stable F K) (c : ViewCell)
    (h : ∀ p s n t, K s → build d c.target c.place p s = .ok n t → P t (.node n)) :
    Gives F K (fun v s => P s v) (newSeparator c d) := by
  refine .of_within hK (.bind (.of_adds (build_adds _ _ _)) (fun _ => .pure _)) (fun p s v t hs hv => ?_)
  obtain ⟨n,u,hn,hv⟩ := Edit.bind_ok.mp hv
  obtain ⟨rfl,rfl⟩ := Edit.pure_ok.mp hv
  exact h p s n _ hs hn

theorem followedBy_gives {separator : Edit Value} (h : Gives F K (fun v s => P s v) separator)
    (hP : ∀ v, Stable F (fun s => P s v)) (xs : List Value) :
    Gives F K (fun es s => Followed (P s) xs es) (followedBy separator xs) := by
  induction xs with
  | nil => exact .pure (fun _ _ => .nil)
  | cons x xs ih =>
    exact .bind h (fun e => .bind (ih.and (hP e)) (fun es => .pure (fun s hs => .cons hs.1.2 hs.2)))

/-- The word for the style of a view of items between commas. -/
def styleWord (flat : Bool) : String := if flat then "flat" else "indented"

/-- A view shows some items in a style. -/
def Store.ShowsIn (s : Store) (w : ViewId) (style : Option Value) (D : List Value) : Prop :=
  ∃ c, s.views[w.index]? = some c ∧ c.items = D ∧ c.style = style

theorem stable_showsIn {w : ViewId} (hw : ¬ F.view w) (style : Option Value) (D : List Value) :
    Stable F (fun s => s.ShowsIn w style D) := by
  rintro s t ⟨c,hc,hitems,hstyle⟩ hF
  obtain ⟨d,hd,hkeeps⟩ := hF.view hc
  exact ⟨d,hd,(hkeeps.items hw).trans hitems,hkeeps.style.trans hstyle⟩

/-- A view shows some items, in one of the two styles. -/
def InStyle (s : Store) (w : ViewId) (flat : Bool) (xs : List Value) : Prop :=
  ∃ c, s.views[w.index]? = some c ∧ c.items = xs ∧ c.style = some (.text (styleWord flat))

theorem stable_inStyle {w : ViewId} (hw : ¬ F.view w) (flat : Bool) (xs : List Value) :
    Stable F (fun s => InStyle s w flat xs) := stable_showsIn hw _ xs

theorem InStyle.frame {w : ViewId} {flat : Bool} {xs : List Value} (h : InStyle s w flat xs) (hF : s.Frame F t)
    (hw : ¬ F.view w) : InStyle t w flat xs := stable_inStyle hw flat xs s t h hF

theorem hasStyle_ok {c : ViewCell} {style : String} (h : c.style = some (.text style)) (word : String) :
    c.hasStyle word s = .ok (style == word) := by
  unfold ViewCell.hasStyle
  rw [h]
  exact equal_ofDatum (.text style) word s

/-- Whether a style is the given word. -/
def styleIs (style : Option Value) (word : String) : Bool :=
  match style.bind Value.toDatum? with
  | some d => d.same (.text word)
  | none => false

theorem equal_text {word : String} {b : Bool} (h : equal v (.text word) s = .ok b) : b = match v.toDatum? with
      | some d => d.same (.text word)
      | none => false := by
  change equalAt s.depth v (.text word) s = .ok b at h
  unfold Store.depth at h
  have hnone : sequence? (.text word) s = .ok none := rfl
  cases v with
  | list l =>
    simp only [equalAt,Value.toDatum?] at h
    obtain ⟨xs,-,h⟩ := Read.bind_ok.mp h
    obtain ⟨ys,hys,h⟩ := Read.bind_ok.mp h
    obtain rfl : none = ys := Except.ok.inj (hnone.symm.trans hys)
    cases xs with
    | none => exact (Read.pure_ok.mp h).symm
    | some q => exact (Read.pure_ok.mp h).symm
  | _ => exact (Except.ok.inj h).symm

theorem hasStyle_eq {c : ViewCell} {word : String} {b : Bool} (h : c.hasStyle word s = .ok b) : b = styleIs c.style word := by
  unfold ViewCell.hasStyle at h
  cases hstyle : c.style with
  | none =>
    rw [hstyle] at h
    exact absurd h Read.throw_ok
  | some v =>
    rw [hstyle] at h
    exact equal_text h

theorem styleIs_inj {style : Option Value} {word word' : String} (h : styleIs style word = true) (h' : styleIs style word' = true) : word = word' := by
  have htext : ∀ word, styleIs style word = true → style.bind Value.toDatum? = some (.text word) := by
    intro word h
    unfold styleIs at h
    split at h
    · next d hd =>
      by_contra hne
      rw [Datum.same_text_eq_false (fun heq => hne (hd.trans (congrArg some heq)))] at h
      cases h
    · cases h
  have heq := (htext word h).symm.trans (htext word' h')
  simpa using heq

variable {w : ViewId} {l : ListId} {n : NodeId} {f : Field} {k : Kind} {xs : List Value}

theorem spacedComma_of_build {m : NodeId} {parent : Value} {place : Option Attr} (hheld : Held s w l n f k .comma)
    (h : build (commaDatum spaceDatum) parent place p s = .ok m t) : t.SpacedComma l (.node m) := by
  obtain ⟨lc,hlc,-⟩ := hheld.list
  obtain ⟨l',hle,hspaced⟩ := (Kept.of_run h).spaced
  refine ⟨(Kept.of_run h).comma,l',fun heq => ?_,hspaced⟩
  have hlt : l.index < s.lists.size := Store.lt_lists_of_get hlc
  rw [← heq] at hlt
  exact absurd hlt (Nat.not_lt.mpr hle)

/-- The line end in the last comma takes the indentation of what holds the list. -/
theorem lastComma_gives {xs all : List Value} (hK : Stable F K) (hP : ∀ v, Stable F (fun s => P s v))
    (hlast : ∀ s x v n rest, P s x → attr x "second_formatting" s = .ok v → items v s = .ok (.node n :: rest) →
      F.attr n (.field .indent)) :
    Gives F (fun s => K s ∧ Followed (P s) xs all) (fun es s => Followed (P s) xs es) (match all.getLast? with
      | none => pure all
      | some last => do
        let indent ← attr (← attr (.view w) "parent") "indentation"
        match ← items (← attr last "second_formatting") with
        | first :: _ => do
          setIndent first indent
          pure all
        | [] => do
          throw .outOfRange
          pure all) := by
  have hstable : Stable F (fun s => Followed (P s) xs all) :=
    fun s t hs hF => hs.imp (fun v hv => hP v s t hv hF)
  split
  · exact .pure (fun _ hs => hs.2)
  · next last hall =>
    refine .ask (fun s holder _ _ => .ask (fun s indent _ _ => ?_))
    refine .each (fun s hs => ?_)
    refine .ask (Store.Frame.refl F) (fun s₁ after hs₁ hafter => .ask (Store.Frame.refl F) (fun s₂ inside hs₂ hinside => ?_))
    subst hs₁ hs₂
    refine Edit.Meets.weaken (?_ : Gives F _ _ _) (fun s' hs' => hs' ▸ hs) (fun _ _ h => h)
    split
    · next first rest =>
      refine .first (hK.and hstable) (.setIndent (fun m hm => ?_) _) (fun _ => .pure (fun _ hs => hs.2))
      exact hlast _ _ _ m rest (hs.2.last hall) hafter (hm ▸ hinside)
    · exact .first (hK.and hstable) (.throw _) (fun _ => .pure (fun _ hs => hs.2))

/-- A comma is expected after every item, but in flat style not after the last. In indented style what holds the list is
formatted anew, and the last comma is; in any other style a space follows each comma. -/
theorem expectedCommas_gives {c : ViewCell} (hK : Stable F K) (hP : ∀ v, Stable F (fun s => P s v))
    (hmade : ∀ d p s n t, (styleIs c.style "indented" = false → d = spaceDatum) → K s →
      build (commaDatum d) c.target c.place p s = .ok n t → P t (.node n))
    (hholder : styleIs c.style "indented" = true →
      ∀ s n, K s → attr (.view w) "parent" s = .ok (.node n) → F.attr n (.field .secondFormatting))
    (hlast : styleIs c.style "indented" = true → ∀ s x v n rest, P s x → attr x "second_formatting" s = .ok v →
      items v s = .ok (.node n :: rest) → F.attr n (.field .indent)) (hl : ∀ l, ¬ F.list l) :
    Gives F K (fun es t => ∃ all, Followed (P t) c.items all ∧ es = if styleIs c.style "flat" then all.dropLast else all)
      (expectedCommas w c) := by
  unfold expectedCommas
  refine .ask (fun s indented _ hb => ?_)
  obtain rfl := hasStyle_eq hb
  cases hindented : styleIs c.style "indented" with
  | false =>
    simp only [Bool.false_eq_true,if_false,pure_bind]
    refine .bind (followedBy_gives (newSeparator_gives hK c (fun p s n t => hmade _ p s n t (fun _ => rfl))) hP c.items)
      (fun all => ?_)
    refine .ask (fun s flat hs hflat => ?_)
    rw [← hasStyle_eq hflat]
    cases flat with
    | true => exact .pure (fun s hs => ⟨all,hs.2,rfl⟩)
    | false => exact .pure (fun s hs => ⟨all,hs.2,rfl⟩)
  | true =>
    have hflat : ¬ styleIs c.style "flat" = true := fun hflat => by simpa using styleIs_inj hindented hflat
    simp only [if_true,if_neg hflat,exists_eq_right']
    have hseparator : Gives F K (fun v s => P s v) (do
        let indent ← Edit.lift (asIndent (← indentedMore (← attr (.view w) "parent")))
        let after ← pure (lineEnd indent)
        newSeparator c (commaDatum after)) := by
      simp only [pure_bind]
      refine .ask (fun s holder _ _ => .ask (fun s indent _ _ => .first hK (.lift _) (fun indent => ?_)))
      exact newSeparator_gives hK c (fun p s n t => hmade _ p s n t (fun hf => by rw [hindented] at hf; cases hf))
    have hrest := Gives.bind (followedBy_gives hseparator hP c.items) (fun _ => lastComma_gives (w := w) hK hP (hlast hindented))
    split
    · refine reformat_gives hK ?_ (hholder hindented) hl hrest
      exact .of_within hK (.newLooseList _) (fun p s l t _ h => ⟨[],newLooseList_items h,by simp⟩)
    · refine .ask (fun s holder _ _ => .ask (fun s indent _ _ => .first hK (.lift _) (fun indent => ?_)))
      refine reformat_gives hK ?_ (hholder hindented) hl hrest
      exact .of_within hK (.buildList _ _ _) (fun p s l t _ h => buildList_items h)

theorem expectedItems_gives {style : Option Value} (hK : Stable F K) (hP : ∀ v, Stable F (fun s => P s v))
    (hview : ∀ s, K s → ∃ c, s.views[w.index]? = some c ∧ c.form = .comma ∧ c.items = xs ∧ c.style = style)
    (hmade : ∀ d parent place p s n t, (styleIs style "indented" = false → d = spaceDatum) → K s →
      build (commaDatum d) parent place p s = .ok n t → P t (.node n))
    (hholder : styleIs style "indented" = true →
      ∀ s n, K s → attr (.view w) "parent" s = .ok (.node n) → F.attr n (.field .secondFormatting))
    (hlast : styleIs style "indented" = true → ∀ s x v n rest, P s x → attr x "second_formatting" s = .ok v →
      items v s = .ok (.node n :: rest) → F.attr n (.field .indent)) (hl : ∀ l, ¬ F.list l) :
    Gives F K (fun es t => ∃ all, Followed (P t) xs all ∧ es = if styleIs style "flat" then all.dropLast else all)
      (expectedItems w) := by
  unfold expectedItems
  refine .ask (fun s c hs hc => ?_)
  obtain ⟨c',hc',hform,rfl,rfl⟩ := hview s hs
  cases (Read.view_ok.mp hc).symm.trans hc'
  rw [hform]
  exact expectedCommas_gives hK hP (fun d => hmade d _ _) hholder hlast hl

/-- In flat style a comma with a space is expected between any two items. -/
theorem expectedItems_flat {K : Store → Prop} (hK : Stable .nothing K) (hheld : ∀ s, K s → Held s w l n f k .comma)
    (hstyle : ∀ s, K s → InStyle s w true xs) (hP : ∀ v, Stable .nothing (fun s => P s v))
    (hmade : ∀ parent place p s m t, K s → build (commaDatum spaceDatum) parent place p s = .ok m t → P t (.node m)) :
    Gives .nothing K (fun es s => ∃ all, Followed (P s) xs all ∧ es = all.dropLast) (expectedItems w) := by
  have hindented : ¬ styleIs (some (.text "flat")) "indented" = true := by decide
  have hview : ∀ s, K s → ∃ c, s.views[w.index]? = some c ∧ c.form = .comma ∧ c.items = xs ∧ c.style = some (.text "flat") := by
    intro s hs
    obtain ⟨c,hc,hshown⟩ := hstyle s hs
    obtain ⟨c',hc',hform,-⟩ := (hheld s hs).view
    cases hc.symm.trans hc'
    exact ⟨c,hc,hform,hshown⟩
  exact expectedItems_gives hK hP hview
    (fun d parent place p s n t hd hs h => hmade parent place p s n t hs (hd (by decide) ▸ h)) (fun h => absurd h hindented)
    (fun h => absurd h hindented) (fun _ h => h)

end Expected

section Aligning

/-- A comma takes any list of nodes for what follows it. -/
theorem assign_comma (hc : s.nodes[n.index]? = some c) (hcomma : c.IsComma) (hitems : s.HasItems l .nodes xs)
    (hxs : ∀ x ∈ xs, ∃ m, x = .node m) (p : Parser) : ∃ u, s.Frame .nothing u ∧
      assign (.node n) "second_formatting" (.list l) p s = .ok () (u.mapNode n (·.put (.field .secondFormatting) (.list l))) := by
  obtain ⟨u,hholders,-⟩ := setHolders_run hxs (.node n) (some (.field .secondFormatting)) p s
  have hframe : s.Frame .nothing u := (Edit.Meets.frame_ok (Within.setHolders (movable_of_nodes hxs) _ _) trivial hholders).1
  refine ⟨u,hframe,?_⟩
  obtain ⟨e,he,-⟩ := hframe.node hc
  obtain ⟨d,hd,hflavour,rfl⟩ := hitems
  have htexts : c.texts.contains .secondFormatting = false := by rw [hcomma.texts]; rfl
  have hchildren : c.children.contains .secondFormatting = false := by rw [hcomma.children]; rfl
  have hlists : c.lists.contains .secondFormatting = true := by rw [hcomma.lists]; rfl
  have hlist : listFor (.node n) (.list l) (.node n) (some (.field .secondFormatting)) p s = .ok (.list l) u := by
    refine Edit.ask_ok.mpr ⟨d,Read.list_ok.mpr hd,?_⟩
    rw [hflavour]
    exact Edit.bind_ok.mpr ⟨(),u,hholders,rfl⟩
  have hput : (u.mapNode n (·.put (.field .secondFormatting) (.list l))).nodes[n.index]? =
      some (e.put (.field .secondFormatting) (.list l)) := Store.mapNode_self he
  change assignNode n "second_formatting" (.list l) p s = _
  unfold assignNode
  rw [Edit.node_known hc,ofWord_formatting,assigned_field,prepareStore_formatting,properties_formatting]
  refine Edit.bind_ok.mpr ⟨_,s,rfl,Edit.bind_ok.mpr ⟨(),_,?_,wrapHeld_plain hput (viewForm_formatting _)⟩⟩
  refine Edit.ask_ok.mpr ⟨c,Read.node_ok.mpr hc,?_⟩
  dsimp only
  rw [hcomma.building,htexts,hchildren,hlists]
  exact Edit.bind_ok.mpr ⟨_,u,hlist,rfl⟩

theorem equalAt_node {fuel : Nat} (h : equalAt fuel v (.node m) s = .ok true) : v = .node m := by
  cases fuel with
  | zero =>
    simp only [equalAt] at h
    exact absurd h Read.throw_ok
  | succ fuel =>
    cases v with
    | node n =>
      simp only [equalAt,Read.pure_ok,beq_iff_eq] at h
      rw [h]
    | _ =>
      simp only [equalAt,Value.toDatum?] at h
      rw [if_neg (by simp [Value.is]),Read.bind_ok] at h
      obtain ⟨a,-,h⟩ := h
      obtain ⟨b,hb,h⟩ := Read.bind_ok.mp h
      obtain rfl : none = b := Read.pure_ok.mp hb
      cases a <;> cases h

/-- Only a list of the same single node is equal to a list of a single node. -/
theorem equal_single {d : ListCell} (hd : s.lists[l.index]? = some d) (hitems : d.items = [.node m])
    (h : equal v (.list l) s = .ok true) : ∃ l' d', v = .list l' ∧ s.lists[l'.index]? = some d' ∧ d'.items = [.node m] := by
  have hsame : ∀ fuel xs, sameItemsWith (equalAt fuel) xs [.node m] s = .ok true → xs = [.node m] := by
    intro fuel xs h
    cases xs with
    | nil =>
      simp only [sameItemsWith] at h
      cases h
    | cons x xs =>
      simp only [sameItemsWith,Read.bind_ok] at h
      obtain ⟨b,hb,h⟩ := h
      cases b with
      | false => cases h
      | true =>
        rw [equalAt_node hb]
        cases xs with
        | nil => rfl
        | cons y ys =>
          simp only [sameItemsWith,if_true] at h
          cases h
  have hseq : ∀ q, sequence? (.list l) s = .ok q → q = none ∨ ∃ b, q = some (b,[.node m]) := by
    intro q hq
    simp only [sequence?,Read.bind_ok,Read.list_ok] at hq
    obtain ⟨d',hd',hq⟩ := hq
    cases hd.symm.trans hd'
    rw [hitems] at hq
    cases hf : d.flavour <;> rw [hf] at hq <;> cases hq <;> simp
  unfold equal at h
  simp only [Read.bind_ok,Read.depth_ok,exists_eq_left'] at h
  unfold Store.depth at h
  by_cases his : v.is (.list l) = true
  · obtain rfl : v = .list l := by
      cases v <;> simp [Value.is] at his
      rw [his]
    exact ⟨l,d,rfl,hd,hitems⟩
  · have hsequence : ∃ b, sequence? v s = .ok (some (b,[.node m])) := by
      cases v <;>
      · simp only [equalAt,Value.toDatum?] at h
        rw [if_neg his,Read.bind_ok] at h
        obtain ⟨q,hq,h⟩ := h
        obtain ⟨q',hq',h⟩ := Read.bind_ok.mp h
        rcases hseq q' hq' with rfl | ⟨b,rfl⟩
        · cases q <;> cases h
        · cases q with
          | none => cases h
          | some q =>
            obtain ⟨b',xs⟩ := q
            dsimp only at h
            split at h
            · exact ⟨b',hsame _ xs h ▸ hq⟩
            · cases h
    obtain ⟨b,hq⟩ := hsequence
    cases v with
    | list l' =>
      simp only [sequence?,Read.bind_ok,Read.list_ok] at hq
      obtain ⟨d',hd',hq⟩ := hq
      refine ⟨l',d',rfl,hd',?_⟩
      cases hf : d'.flavour <;> rw [hf] at hq <;> simp only [Read.pure_ok,Option.some.injEq,Prod.mk.injEq,reduceCtorEq] at hq
      all_goals exact hq.2
    | keys ks =>
      have hks := (Prod.mk.inj (Option.some.inj (Except.ok.inj hq))).2
      obtain ⟨k,-,hk⟩ := List.mem_map.mp (hks ▸ List.mem_singleton.mpr rfl : .node m ∈ ks.map Key.toValue)
      cases k <;> cases hk
    | data x =>
      cases x with
      | list ds =>
        have hds := (Prod.mk.inj (Option.some.inj (Except.ok.inj hq))).2
        obtain ⟨x,-,hx⟩ := List.mem_map.mp (hds ▸ List.mem_singleton.mpr rfl : .node m ∈ ds.map Value.ofDatum)
        cases x <;> cases hx
      | _ => cases hq
    | _ => cases hq

theorem copyList_ok (h : copyList v p s = .ok l t) :
    ∃ d ms u, snapshot v s = .ok d ∧ buildItems d .none none p s = .ok ms u ∧
      l = ⟨u.lists.size⟩ ∧ t = u.addList ⟨.nodes,ms,.none,none,[]⟩ := by
  simp only [copyList,Edit.bind_ok,Edit.read_ok] at h
  obtain ⟨d,_,⟨hd,rfl⟩,ms,u,hms,hl⟩ := h
  exact ⟨d,ms,u,hd,hms,newLooseList_ok hl⟩

theorem copyList_grows : Adds (copyList v) :=
  .bind (.read _) (fun _ => .bind (buildItems_adds _ _ _) (fun _ => .newList _))

theorem copyList_items (h : copyList v p s = .ok l t) : t.NodeList l := by
  obtain ⟨d,ms,u,-,hms,rfl,rfl⟩ := copyList_ok h
  obtain ⟨ds,hrow,-⟩ := (Kept.of_run hms).items
  refine ⟨ms,⟨_,by rw [Store.addList_get,if_pos rfl],rfl,rfl⟩,fun x hx => ?_⟩
  obtain ⟨_,⟨m,_,rfl,-⟩,-⟩ := hrow.all_honest x hx
  exact ⟨m,rfl⟩

theorem snapshot_single {lc : ListCell} (hlc : s.lists[l.index]? = some lc) (hitems : lc.items = [.node m])
    (he : s.nodes[m.index]? = some e) (hspace : e.IsSpace) (h : snapshot (.list l) s = .ok d) : d = .list [spaceDatum] := by
  unfold snapshot at h
  simp only [Read.bind_ok,Read.depth_ok,exists_eq_left'] at h
  unfold Store.depth at h
  simp only [snapshotAt,Read.bind_ok,Read.list_ok] at h
  obtain ⟨lc',hlc',h⟩ := h
  cases hlc.symm.trans hlc'
  have hlt := Store.lt_lists_of_get hlc
  obtain ⟨fuel,hfuel⟩ : ∃ fuel, s.nodes.size + s.lists.size + s.views.size = fuel + 1 :=
    ⟨s.nodes.size + s.lists.size + s.views.size - 1,by omega⟩
  split at h
  · simp only [hitems,hfuel,List.mapM_cons,List.mapM_nil,Read.bind_ok,Read.pure_ok] at h
    obtain ⟨_,⟨part,hpart,_,rfl,rfl⟩,rfl⟩ := h
    rw [hspace.snapshot he] at hpart
    cases hpart
    rfl
  · exact absurd h Read.throw_ok

theorem buildItems_space {ms : List Value} (h : buildItems (.list [spaceDatum]) parent place p s = .ok ms t) :
    ∃ m e, ms = [.node m] ∧ s.nodes.size ≤ m.index ∧ t.nodes[m.index]? = some e ∧ e.IsSpace := by
  have hrow : Kept (buildEach [spaceDatum] parent place) p s.mark t.mark ms t := Kept.of_run h
  obtain ⟨m,rest,e,rfl,hm,hrest,-,-⟩ := hrow.cons
  obtain rfl := hrest.nil
  obtain ⟨c,hc,hspace⟩ := hm.space
  obtain ⟨_,_,_,-,hg⟩ := hm.grown
  exact ⟨m,c,rfl,Nat.le_of_eq hg.first.symm,hc,hspace⟩

theorem alignSeparator_gives (hK : Stable F K) {x : Value} (hfree : ∀ n, x = .node n → F.attr n (.field .secondFormatting))
    (hl : ∀ l, ¬ F.list l) (e : Value) : Gives F K (fun _ _ => True) (alignSeparator .comma x e) := by
  unfold alignSeparator
  refine .ask (fun s wanted _ _ => .ask (fun s found _ _ => .ask (fun s same _ _ => ?_)))
  split
  · refine .bind (.of_within hK (.of_adds copyList_grows) (fun _ _ _ _ _ h => copyList_items h)) (fun l => ?_)
    exact assign_nodeList_gives hK hfree (hl l)
  · exact .pure (fun _ _ => trivial)

/-- A comma that is aligned with one before a space has a space after it, too. -/
theorem alignSeparator_spaced {e : Value} (hx : s.Comma (.node n)) (he : s.Spaced e)
    (h : alignSeparator .comma (.node n) e p s = .ok r t) : t.Spaced (.node n) := by
  obtain ⟨_,c,hn,hc,hcomma⟩ := hx
  cases hn
  obtain ⟨l,m,d,lc,q,space,rfl,hd,-,hv,hlc,hitems,hspace,hq⟩ := he
  simp only [alignSeparator,Edit.bind_ok,Edit.read_ok] at h
  obtain ⟨wanted,_,⟨hwanted,rfl⟩,found,_,⟨hfound,rfl⟩,same,_,⟨hsame,rfl⟩,h⟩ := h
  have hattr : attr (.node m) "second_formatting" s = .ok (.list l) := attr_stored hd hv
  rw [hattr] at hwanted
  cases hwanted
  obtain ⟨v,hfv⟩ := Option.isSome_iff_exists.mp hcomma.after
  have hattr' : attr (.node n) "second_formatting" s = .ok v := attr_stored hc hfv
  rw [hattr'] at hfound
  cases hfound
  cases same with
  | true =>
    obtain ⟨l',d',rfl,hd',hxs⟩ := equal_single hlc hitems hsame
    obtain ⟨-,rfl⟩ := Edit.pure_ok.mp h
    exact ⟨l',n,c,d',q,space,rfl,hc,hcomma.building,hfv,hd',hxs,hspace,hq⟩
  | false =>
    obtain ⟨l',u,hcopy,hassign⟩ := Edit.bind_ok.mp h
    have hgrows := copyList_grows.grows hcopy
    obtain ⟨d,ms,u',hsnapshot,hbuild,rfl,rfl⟩ := copyList_ok hcopy
    obtain rfl := snapshot_single hlc hitems hspace hq hsnapshot
    obtain ⟨q',space',rfl,hle,hspace',hq'⟩ := buildItems_space hbuild
    have hget : (u'.addList ⟨.nodes,[.node q'],.none,none,[]⟩).lists[u'.lists.size]? =
        some ⟨.nodes,[.node q'],.none,none,[]⟩ := by rw [Store.addList_get,if_pos rfl]
    have hc' := (hgrows.nodes _ (Store.lt_nodes_of_get hc)).trans hc
    obtain ⟨u₂,hframe,hrun⟩ := assign_comma hc' hcomma ⟨_,hget,rfl,rfl⟩ (by simp) p
    cases hassign.symm.trans hrun
    obtain ⟨c₂,hc₂,hkeeps⟩ := hframe.node hc'
    obtain ⟨lc₂,hlc₂,hkeepsl⟩ := hframe.list (l := ⟨u'.lists.size⟩) hget
    obtain ⟨space₂,hspace₂,hkeepsq⟩ := hframe.node (n := q') hspace'
    have hne : n.index ≠ q'.index := by
      have hlt := Store.lt_nodes_of_get hc
      omega
    refine ⟨_,n,c₂.put (.field .secondFormatting) (.list ⟨u'.lists.size⟩),lc₂,q',space₂,rfl,?_,?_,
      NodeCell.stored_put_self ..,hlc₂,hkeepsl.items id,?_,?_⟩
    · exact Store.mapNode_self hc₂
    · exact hkeeps.building.trans hcomma.building
    · rw [Store.mapNode_get,if_neg hne,hspace₂]
    · exact ⟨hkeepsq.kind.trans hq'.kind,hkeepsq.texts.trans hq'.texts,hkeepsq.lists.trans hq'.lists,
        hkeepsq.children.trans hq'.children,(hkeepsq.stored _ id).trans hq'.type,
        (hkeepsq.stored _ id).trans hq'.value⟩

theorem alignSeparators_gives (hK : Stable F K)
    (hfree : ∀ q ∈ pairs, ∀ n, q.1 = .node n → F.attr n (.field .secondFormatting)) (hl : ∀ l, ¬ F.list l) :
    Gives F K (fun _ _ => True) (alignSeparators .comma pairs) := by
  induction pairs with
  | nil => exact .pure (fun _ _ => trivial)
  | cons q pairs ih =>
    have hrest := ih (List.forall_mem_cons.mp hfree).2
    exact .bind (alignSeparator_gives hK (hfree q List.mem_cons_self) hl q.2) (fun _ => hrest.and (fun _ _ h _ => h))

/-- Where one comma is aligned with another before a space, only what follows it is changed, and no comma loses its space. -/
theorem alignSeparator_keeps {x e : Value} (hx : s.Comma x) (he : s.Spaced e) (h : alignSeparator .comma x e p s = .ok r t) :
    ∃ n, x = .node n ∧ s.Frame (.only n (.field .secondFormatting)) t ∧ t.Spaced x ∧ ∀ v, s.Spaced v → t.Spaced v := by
  obtain ⟨n,c,rfl,-⟩ := id hx
  have hfree : ∀ m, Value.node n = .node m → (Freedom.only n (.field .secondFormatting)).attr m (.field .secondFormatting) :=
    fun m hm => ⟨(Value.node.inj hm).symm,rfl⟩
  have hstable : Stable (.only n (.field .secondFormatting)) (fun _ => True) := fun _ _ h _ => h
  have hframe := (Edit.Meets.frame_ok (alignSeparator_gives hstable hfree (fun _ h => h) e) trivial h).1
  have hself := alignSeparator_spaced hx he h
  refine ⟨n,rfl,hframe,hself,fun v hv => ?_⟩
  by_cases hvn : v = .node n
  · exact hvn ▸ hself
  · refine hv.frame hframe (fun m a hm => ⟨hm.2,?_⟩) (fun _ h => h)
    rw [hm.1]
    exact hvn

/-- All commas that are aligned with commas before a space have a space after them in the end, and no
other loses it. -/
theorem alignSeparators_spaced (hpairs : ∀ q ∈ pairs, s.Comma q.1 ∧ s.Spaced q.2)
    (h : alignSeparators .comma pairs p s = .ok r t) : (∀ q ∈ pairs, t.Spaced q.1) ∧ ∀ v, s.Spaced v → t.Spaced v := by
  induction pairs generalizing s with
  | nil =>
    obtain ⟨-,rfl⟩ := Edit.pure_ok.mp h
    exact ⟨by simp,fun _ h => h⟩
  | cons q pairs ih =>
    obtain ⟨_,u,hq,hrest⟩ := Edit.bind_ok.mp h
    obtain ⟨hcomma,hspaced⟩ := hpairs q List.mem_cons_self
    obtain ⟨n,-,hframe,hself,hkept⟩ := alignSeparator_keeps hcomma hspaced hq
    obtain ⟨hall,hothers⟩ := ih (fun q' hq' => by
      obtain ⟨h₁,h₂⟩ := hpairs q' (List.mem_cons_of_mem _ hq')
      exact ⟨h₁.frame hframe (fun m hm => by cases hm.2),hkept _ h₂⟩) hrest
    refine ⟨fun q' hq' => ?_,fun v hv => hothers v (hkept v hv)⟩
    rcases List.mem_cons.mp hq' with rfl | hq'
    · exact hothers _ hself
    · exact hall q' hq'

end Aligning

end CodeTree
