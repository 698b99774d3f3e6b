import CodeTree.Proofs.BlockShifts
import CodeTree.Proofs.Navigating

/-! # Line ends after a block

A block that is assigned as text is given line ends at its end, so that what follows stands apart: three before another
element of the document, and where a list ends whose holder is followed by something, two between the statements of a
block. How many are added is told from the line ends that the text already ends in.
-/
namespace CodeTree
variable {α : Type} {s t u : Store} {p : Parser} {n m : NodeId} {c : NodeCell} {w : ViewId} {root l : ListId}
  {height i : Nat} {atTop followed above : Bool} {there size : Nat}

section Trailing
variable {q r : α → Bool} {xs ys : List α}

/-- The length of the run at the end of a list in which all items are of one sort. -/
def trailing (q : α → Bool) (xs : List α) : Nat := (xs.reverse.takeWhile q).length

theorem all_take_iff (q : α → Bool) (k : Nat) (xs : List α) :
    (xs.take k).all q = decide (min k xs.length ≤ (xs.takeWhile q).length) := by
  induction xs generalizing k with
  | nil => simp
  | cons x xs ih =>
    cases k with
    | zero => simp
    | succ k =>
      cases hx : q x with
      | true =>
        simp only [List.take_succ_cons,List.all_cons,hx,Bool.true_and,ih,List.takeWhile_cons,if_true,List.length_cons]
        rw [decide_eq_decide]
        omega
      | false => simp [hx]

theorem all_last_iff (q : α → Bool) (k : Nat) (xs : List α) :
    (xs.drop (xs.length - k)).all q = decide (min k xs.length ≤ trailing q xs) := by
  have h := all_take_iff q k xs.reverse
  rwa [List.take_reverse,List.all_reverse,List.length_reverse] at h

theorem trailing_append (hys : ∀ y ∈ ys, q y = true) : trailing q (xs ++ ys) = trailing q xs + ys.length := by
  rw [trailing,List.reverse_append,List.takeWhile_append_of_pos (by simpa using hys),List.length_append,List.length_reverse,
    Nat.add_comm]
  rfl

theorem trailing_congr (h : ∀ x ∈ xs, q x = r x) : trailing q xs = trailing r xs := by
  have htake : ∀ ys : List α, (∀ x ∈ ys, q x = r x) → ys.takeWhile q = ys.takeWhile r := by
    intro ys hys
    induction ys with
    | nil => rfl
    | cons y ys ih =>
      rw [List.takeWhile_cons,List.takeWhile_cons,hys y List.mem_cons_self,ih (fun x hx => hys x (List.mem_cons_of_mem y hx))]
  rw [trailing,htake _ (fun x hx => h x (List.mem_reverse.mp hx))]
  rfl

theorem trailing_le (q : α → Bool) (xs : List α) : trailing q xs ≤ xs.length := by
  simpa [trailing] using (List.takeWhile_prefix q : xs.reverse.takeWhile q <+: _).length_le

end Trailing

section Following
variable {keys : List Key}

/-- Whether something is there and counts as true. -/
def Store.present (t : Store) : Value → Bool
  | .node m => t.filled m
  | _ => false

theorem Store.Tree.filled_grows (h : t.Tree i m) (hgrows : t.Grows u) : u.filled m = t.filled m := by
  obtain ⟨j,mc,rfl,hmc⟩ := h.opens
  unfold Store.filled
  rw [hgrows.carries.node hmc.cell,hmc.cell]
  simp only [Option.bind_some]
  split
  · next w hv =>
    obtain ⟨vc,-,-,hw,-⟩ := hmc.view hv
    rw [hgrows.views _ (Store.lt_views_of_get hw)]
  · rfl

/-- Where a node that is reached hangs: in the document or at another that is reached, in a list or alone. -/
theorem Store.Reaches.held (hdoc : t.Document w root height) (hx : t.Reaches root keys (.node n)) :
    ∃ holder place, t.Hangs holder place n ∧
      (holder = .view w ∧ place = .root ∨ ∃ q keys', holder = .node q ∧ place ≠ .root ∧ t.Reaches root keys' (.node q)) ∧
      ((∃ (l : ListId) (lc : ListCell) (k : Nat), t.lists[l.index]? = some lc ∧ lc.flavour = .nodes ∧ t.HoldsList holder place l ∧ lc.items.Nodup ∧
          lc.items[k]? = some (.node n)) ∨
        ∃ q qc f, holder = .node q ∧ place = .field f ∧ t.nodes[q.index]? = some qc ∧ qc.stored? (.field f) = some (.node n)) := by
  cases hx with
  | @item _ l lc k _ above cell member =>
    have hrow : ∀ {P holder place} {ms : List NodeId}, lc.items = ms.map .node → t.Siblings P holder place ms →
        t.Hangs holder place n ∧ lc.items.Nodup := by
      intro P holder place ms hitems hms
      obtain ⟨m,hm,hnm⟩ := List.mem_map.mp (hitems ▸ List.mem_of_getElem? member)
      cases hnm
      exact ⟨hms.hang n hm,hitems ▸ hms.nodup.map (fun _ _ h => Value.node.inj h)⟩
    cases above with
    | root =>
      obtain ⟨ms,-,hroot,hms⟩ := hdoc.nodes
      cases hroot.symm.trans cell
      obtain ⟨hhangs,hnodup⟩ := hrow rfl hms
      obtain ⟨vc,hw,hform,htarget,-⟩ := hdoc.view
      exact ⟨_,_,hhangs,.inl ⟨rfl,rfl⟩,.inl ⟨_,_,k,hroot,rfl,.root hw hform htarget,hnodup,member⟩⟩
    | @list keys q qc slots form f shown held _ _ above qcell layout slot stored behind behindCell nodes =>
      obtain ⟨j,-,hq⟩ := (hdoc.member ((above.member hdoc).1 q rfl)).stands qcell
      obtain ⟨hcovers,ms,rfl,hms⟩ := hq.row stored behind behindCell nodes
      cases behindCell.symm.trans cell
      obtain ⟨hhangs,hnodup⟩ := hrow rfl hms
      have hheld : t.HoldsList (.node q) (.field f) l := by
        rcases hcovers with rfl | ⟨w',vc,rfl,hw',htarget,-⟩
        · exact .list qcell stored
        · exact .view qcell stored hw' htarget
      exact ⟨_,_,hhangs,.inr ⟨q,keys,rfl,nofun,above⟩,.inl ⟨_,_,k,cell,rfl,hheld,hnodup,member⟩⟩
  | @child keys q qc slots form f shown _ above qcell layout slot held =>
    have hmember := (above.member hdoc).1 q rfl
    obtain ⟨j,-,hq⟩ := (hdoc.member hmember).stands qcell
    rw [hdoc.layout hmember qcell layout] at slot
    exact ⟨_,_,(hq.child slot held).2.1,.inr ⟨q,keys,rfl,nofun,above⟩,.inr ⟨q,qc,f,rfl,rfl,qcell,held⟩⟩

theorem Store.Reaches.hung (hdoc : t.Document w root height) (hx : t.Reaches root keys (.node n))
    (hc : t.nodes[n.index]? = some c) : c.parent = .view w ∧ c.place = some .root ∨
      ∃ q keys', c.parent = .node q ∧ c.place ≠ some .root ∧ t.Reaches root keys' (.node q) := by
  obtain ⟨holder,place,⟨c',hc',rfl,hplace⟩,hholder,-⟩ := hx.held hdoc
  cases hc'.symm.trans hc
  rcases hholder with ⟨hparent,rfl⟩ | ⟨q,keys',hparent,hne,hq⟩
  · exact .inl ⟨hparent,hplace⟩
  · exact .inr ⟨q,keys',hparent,fun hroot => hne (Option.some.inj (hplace.symm.trans hroot)),hq⟩

/-- What follows a node that is reached does so as long as the store only grows. -/
theorem Store.Reaches.next (hdoc : t.Document w root height) (hx : t.Reaches root keys (.node n)) :
    ∃ v, (v = .none ∨ ∃ m, v = .node m ∧ t.Member w m) ∧ ∀ u, t.Grows u → nextSibling n u = .ok v := by
  obtain ⟨v,hv,hmember⟩ := hdoc.nextSibling ((hx.member hdoc).1 n rfl)
  have hstays : ∃ r, ∀ u, t.Grows u → nextSibling n u = .ok r := by
    obtain ⟨holder,place,⟨c,hc,hparent,hplace⟩,-,⟨l,lc,k,hl,hflavour,hheld,hnodup,hk⟩ | ⟨q,qc,f,rfl,rfl,hq,hstored⟩⟩ := hx.held hdoc
    · refine ⟨lc.items[k + 1]?.getD .none,fun u hu => ?_⟩
      have hheld' : u.HoldsList holder place l := by
        cases hheld with
        | list cell stored => exact .list (hu.carries.node cell) stored
        | view cell stored shown target => exact .view (hu.carries.node cell) stored ((hu.views _ (Store.lt_views_of_get shown)).trans shown) target
        | root shown form target => exact .root ((hu.views _ (Store.lt_views_of_get shown)).trans shown) form target
      exact hheld'.nextSibling (hu.carries.list hl) hflavour hnodup hk ⟨c,hu.carries.node hc,hparent,hplace⟩
    · refine ⟨.none,fun u hu => ?_⟩
      have hheld := (heldIn_field hparent hplace).trans (look_stored (hu.carries.node hq) hstored)
      have hlist := listOf_known (hu.carries.node hc) (by rw [hparent]; rfl) hheld
      have hfollowers : followers? n u = .ok none := by
        unfold followers?
        rw [Read.bind_known hlist]
        rfl
      unfold CodeTree.nextSibling
      rw [Read.bind_known hfollowers]
      rfl
  obtain ⟨r,hr⟩ := hstays
  cases hv.symm.trans (hr t (.refl t))
  exact ⟨v,hmember,hr⟩

theorem Store.Document.next (hdoc : t.Document w root height) : attr (.view w) "next" t = .ok .none := by
  obtain ⟨vc,hw,hform,htarget,-,-,hextra⟩ := hdoc.view
  obtain ⟨ms,-,hroot,-⟩ := hdoc.nodes
  have hword : Attr.ofWord "next" = .other "next" := by decide +kernel
  have hproperty : documentProperties.lookup "next" = none := rfl
  obtain ⟨D,hD⟩ : ∃ D, t.depth = D + 2 := ⟨height + (t.depth - (height + 2)),by have := hdoc.depth; omega⟩
  have hown : vc.own? (.other "next") = none := by
    unfold ViewCell.own?
    rw [hextra]
    rfl
  have hlist : attrAt (D + 1) (.list root) "next" t = .ok .none := by
    unfold attrAt
    dsimp only
    rw [Read.list_known hroot,hword]
    exact (Read.bind_known (a := t.depth) rfl).trans (Read.list_known hroot)
  unfold attr
  rw [Read.bind_known (a := t.depth) rfl,hD,attrAt,Read.view_known hw,hform,hword]
  simp only [beq_self_eq_true,if_true,hproperty,hown,htarget]
  exact hlist

theorem Store.Document.truth_grows (hdoc : t.Document w root height) (hm : t.Member w m) (hu : t.Grows u) :
    truth (.node m) u = .ok (t.filled m) := by
  have hdepth : height < u.depth := by
    have := (hdoc.grows hu).depth
    omega
  exact (((hdoc.grows hu).member ((hdoc.member_iff hu.carries).mpr hm)).truth hdepth).trans
    (congrArg _ ((hdoc.member hm).filled_grows hu))

/-- What follows a node and what follows its parent, and the line ends that are left for them. -/
theorem Store.Reaches.gap (hdoc : t.Document w root height) (hx : t.Reaches root keys (.node n))
    (hc : t.nodes[n.index]? = some c) : ∃ next above, attr (.node n) "next" t = .ok next ∧ attr c.parent "next" t = .ok above ∧
      ∀ u, t.Grows u → nextOf n u = .ok next ∧ truth next u = .ok (t.present next) ∧
        needsGap n u = .ok (if t.present next then c.place == some .root else t.present above) := by
  have htruth : ∀ {v u}, (v = .none ∨ ∃ m, v = .node m ∧ t.Member w m) → t.Grows u → truth v u = .ok (t.present v) := by
    rintro v u (rfl | ⟨m,rfl,hm⟩) hu
    · rfl
    · exact hdoc.truth_grows hm hu
  obtain ⟨next,hnext,hfollows⟩ := hx.next hdoc
  obtain ⟨above,habove,hparent⟩ : ∃ above, (above = .none ∨ ∃ m, above = .node m ∧ t.Member w m) ∧
      ∀ u, t.Grows u → attr c.parent "next" u = .ok above := by
    rcases hx.hung hdoc hc with ⟨hparent,-⟩ | ⟨q,keys',hparent,-,hq⟩
    · exact ⟨.none,.inl rfl,fun u hu => by rw [hparent]; exact (hdoc.grows hu).next⟩
    · obtain ⟨above,habove,hq⟩ := hq.next hdoc
      exact ⟨above,habove,fun u hu => by rw [hparent]; exact attr_node_computed rfl (hq u hu)⟩
  refine ⟨next,above,attr_node_computed rfl (hfollows t (.refl t)),hparent t (.refl t),fun u hu => ?_⟩
  have hnextOf : nextOf n u = .ok next := by
    unfold nextOf computed Read.orElseMissing
    rw [hfollows u hu]
  refine ⟨hnextOf,htruth hnext hu,?_⟩
  unfold needsGap
  rw [Read.bind_known (Read.node_ok.mpr (hu.carries.node hc)),Read.bind_known hnextOf,Read.bind_known (htruth hnext hu)]
  cases t.present next with
  | true =>
    by_cases hplace : c.place = some .root
    · simp [hplace]
    · simp [hplace]
  | false =>
    simp only [Bool.and_false,if_false,Bool.false_eq_true]
    rw [Read.bind_known (hparent u hu)]
    exact htruth habove hu

end Following

section Padding
variable {ms ends : List NodeId}

/-- The line ends that are to be left after a block: at the top of the document or inside another block, before something
or before what follows the parent. -/
def wantedEnds (atTop followed aboveFollowed : Bool) : Nat :=
  if (if followed then atTop else aboveFollowed) then 3 else if followed then 2 else 0

/-- How many line ends are added to a body that ends in some and does not consist of them. Two that are there are not
counted. -/
def addedEnds (wanted there : Nat) : Nat :=
  if 3 ≤ there then 0 else if wanted = 3 then there + 1 else if wanted = 2 then max 1 there else 0

theorem addedEnds_three (h : there ≤ size) : (if there = size then 0 else addedEnds 3 there) =
    if min 1 size ≤ there then if min 2 size ≤ there then if min 3 size ≤ there then 0 else 3 else 2 else 1 := by
  unfold addedEnds
  split_ifs <;> omega

theorem addedEnds_two (h : there ≤ size) : (if there = size then 0 else addedEnds 2 there) =
    if min 2 size ≤ there then if min 3 size ≤ there then 0 else 2 else 1 := by
  unfold addedEnds
  split_ifs <;> omega

theorem addedEnds_zero (there : Nat) : addedEnds 0 there = 0 := by simp [addedEnds]

theorem there_add_addedEnds (hwanted : 0 < wantedEnds atTop followed above) (hthere : 0 < there) :
    there + addedEnds (wantedEnds atTop followed above) there =
      max there (wantedEnds atTop followed above) ↔ there ≠ 2 := by
  revert hwanted
  unfold wantedEnds addedEnds
  split_ifs <;> omega

theorem endsInLineEnds_known (htrees : ∀ m ∈ ms, s.Tree i m) (k : Nat) :
    endsInLineEnds k (ms.map .node) s = .ok (decide (min k ms.length ≤ trailing s.isEnd ms)) := by
  have hall : ∀ xs : List NodeId, (∀ m ∈ xs, s.Tree i m) →
      (xs.map Value.node).allM (fun v => hasType v "endl") s = .ok (xs.all s.isEnd) := by
    intro xs hxs
    induction xs with
    | nil => rfl
    | cons x xs ih =>
      rw [List.map_cons,List.allM,Read.bind_known (hxs x List.mem_cons_self).hasType_endl,List.all_cons]
      cases s.isEnd x with
      | true => exact ih (fun m hm => hxs m (List.mem_cons_of_mem x hm))
      | false => rfl
  unfold endsInLineEnds
  rw [List.length_map,← List.map_drop,hall _ (fun m hm => htrees m (List.mem_of_mem_drop hm)),all_last_iff]

/-- The line ends that are missing are told by the run at the end of the body. -/
theorem missingEnds_known {next : Value} (htrees : ∀ m ∈ ms, s.Tree i m) (hnext : nextOf n s = .ok next)
    (htruth : truth next s = .ok followed) (hgap : needsGap n s = .ok (if followed then atTop else above)) :
    missingEnds n (ms.map .node) s =
      .ok (if trailing s.isEnd ms = ms.length then 0 else addedEnds (wantedEnds atTop followed above) (trailing s.isEnd ms)) := by
  have hle := trailing_le s.isEnd ms
  have htest : ∀ k (x y : Read Nat), (do if !(← endsInLineEnds k (ms.map .node)) then x else y : Read Nat) s =
      if min k ms.length ≤ trailing s.isEnd ms then y s else x s := by
    intro k x y
    rw [Read.bind_known (endsInLineEnds_known htrees k)]
    by_cases h : min k ms.length ≤ trailing s.isEnd ms
    · simp only [h,decide_true,Bool.not_true,Bool.false_eq_true,if_false,if_true]
    · simp only [h,decide_false,Bool.not_false,if_false,if_true]
  unfold missingEnds wantedEnds
  rw [Read.bind_known hgap]
  cases (if followed then atTop else above) with
  | true =>
    simp only [if_true]
    rw [htest,htest,htest,addedEnds_three hle]
    split_ifs <;> rfl
  | false =>
    simp only [Bool.false_eq_true,if_false]
    rw [Read.bind_known hnext,Read.bind_known htruth]
    cases followed with
    | true =>
      simp only [if_true]
      rw [htest,htest,addedEnds_two hle]
      split_ifs <;> rfl
    | false =>
      simp only [Bool.false_eq_true,if_false,addedEnds_zero,ite_self]
      rfl

theorem Store.Reindents.grows (h : t.Reindents s u) (hs : t.Grows s) : t.Grows u := by
  have hcarries := h.carries hs.carries
  exact ⟨hcarries.mark,fun i hi => hcarries.node (n := ⟨i⟩) (Array.getElem?_eq_getElem hi) |>.trans (Array.getElem?_eq_getElem hi).symm,
    fun i hi => by rw [h.lists]; exact hs.lists i hi,fun i hi => by rw [h.views]; exact hs.views i hi⟩

theorem Store.Frame.isEnd {F : Freedom} (h : s.Frame F t) (hm : m.index < s.nodes.size) : t.isEnd m = s.isEnd m := by
  obtain ⟨d,hd,hkeeps⟩ := h.node (n := m) (Array.getElem?_eq_getElem hm)
  unfold Store.isEnd
  rw [hd,Array.getElem?_eq_getElem hm]
  exact congrArg (· == some Kind.endl) (congrArg some hkeeps.kind)

/-- The body that is assigned as text to a node of a new document ends in as many line ends as were found at the end of the
text and are added for what follows the node. What follows has to count as true to be seen. The run that is wanted is there
if and only if the text did not end in two line ends: these are taken for none, and the whole run is added again. -/
theorem assign_block_gap {source : String} (h : newDocument source p s = .ok (.view w) t) :
    ∃ root, behind (.view w) t = .ok (.list root) ∧ ∀ keys n c text u, t.Reaches root keys (.node n) →
      t.nodes[n.index]? = some c → c.kind.hasBlock = true → assign (.node n) "value" (.text text) p t = .ok () u →
      ∃ next above d l t₁ ms held lc ends wanted there, attr (.node n) "next" t = .ok next ∧ attr c.parent "next" t = .ok above ∧
        parseWithin "def a():\n" (blockText text) "\n" [.index 0,.name "value"] p t = .ok d t ∧
        buildList d (.node n) (some (.field .value)) p t = .ok l t₁ ∧ snapshot (.list l) t₁ = .ok (settled d).asItems ∧
        items (.list l) t₁ = .ok (ms.map .node) ∧
        look n (.field .value) u = .ok held ∧ u.Covers held l ∧ u.lists[l.index]? = some lc ∧
        lc.items = (ms ++ ends).map .node ∧
        wanted = wantedEnds (c.place == some .root) (t.present next) (t.present above) ∧ there = trailing t₁.isEnd ms ∧
        trailing u.isEnd (ms ++ ends) = there + (if there = ms.length then 0 else addedEnds wanted there) ∧
        (0 < wanted → 0 < there → there < ms.length → (trailing u.isEnd (ms ++ ends) = max there wanted ↔ there ≠ 2)) := by
  obtain ⟨root,height,hdoc⟩ := newDocument_rooted h
  refine ⟨root,hdoc.rooted,fun keys n c text u hreach hc hblock hassign => ?_⟩
  obtain ⟨l,u₁,hbody,hheld⟩ := assign_block_run h hdoc.rooted hreach hc hblock hassign
  obtain ⟨indentation,margin,body,t₁,ms,orders,t₂,found,-,-,hparse,hbuild,hl,hms,-,-,haligns,ends,t₃,happends,hmissing,hlast⟩ :=
    blockOf_run (fun m hm => Value.node.inj hm ▸ Store.lt_nodes_of_get hc) hbody
  have hl₃ : t₃.lists[l.index]? = some ⟨.nodes,(ms ++ ends).map .node,.node n,some (.field .value),[]⟩ := by
    have := happends.list (c := ⟨.nodes,ms.map .node,.node n,some (.field .value),[]⟩) (by rw [haligns.reindents.lists]; exact hl)
    rwa [← List.map_append] at this
  have hindent : t₃.Frame .attributes u₁ := by
    rcases hlast with rfl | ⟨m,v,-,-,-,hset⟩
    · exact .refl _ _
    · exact (setIndent_frame hset).mono (Freedom.only_le nofun)
  obtain ⟨lc,hlc,hkeeps⟩ := hindent.list hl₃
  have hitems : lc.items = (ms ++ ends).map .node := hkeeps.items id
  obtain ⟨hframe,hlu,held,hlook,hcovers⟩ := hheld lc (ms ++ ends) hlc hitems
  obtain ⟨next,above,hnext,habove,hgap⟩ := hreach.gap hdoc hc
  obtain ⟨hnextOf,htruth,hneeds⟩ := hgap t₂ (haligns.reindents.grows ((buildList_adds _ _ _).grows hbuild))
  have hms₂ : ∀ m ∈ ms, t₂.Tree t₁.nodes.size m := fun m hm => (haligns.reindents.trees (hms.each m hm)).tree
  have hthere : trailing t₂.isEnd ms = trailing t₁.isEnd ms := trailing_congr (fun x _ => haligns.ends x)
  have hlength : ends.length =
      if trailing t₁.isEnd ms = ms.length then 0 else addedEnds (wantedEnds (c.place == some .root) (t.present next) (t.present above))
        (trailing t₁.isEnd ms) := by
    have := hmissing.symm.trans (missingEnds_known hms₂ hnextOf htruth hneeds)
    rw [hthere] at this
    exact Except.ok.inj this
  have hkept : ∀ m, m.index < t₃.nodes.size → u.isEnd m = t₃.isEnd m := fun m hm =>
    (hframe.isEnd (Nat.lt_of_lt_of_le hm hindent.mark.1)).trans (hindent.isEnd hm)
  have htrailing : trailing u.isEnd (ms ++ ends) = trailing t₁.isEnd ms + ends.length := by
    rw [trailing_append,← hthere]
    · refine congrArg (· + ends.length) (trailing_congr (fun m hm => ?_))
      rw [hkept m (Nat.lt_of_lt_of_le (hms₂ m hm).lt_size happends.mark.1),happends.isEnd (hms₂ m hm).lt_size]
    · intro m hm
      obtain ⟨-,hend,hlt,-⟩ := happends.fresh m hm
      rw [hkept m hlt,hend]
  refine ⟨next,above,body,l,t₁,ms,held,lc,ends,_,_,hnext,habove,hparse,hbuild,buildList_snapshot hbuild,
    items_list_ok.mpr ⟨_,hl,rfl⟩,hlook,hcovers,hlu,hitems,rfl,rfl,?_,?_⟩
  · rw [htrailing,hlength]
  · intro hwanted hr hlt
    rw [htrailing,hlength,if_neg (by omega)]
    exact there_add_addedEnds hwanted hr

/-- Answers with a loop and a name after it, and otherwise with a body that ends in two line ends. -/
def gapParser : Parser := fun text =>
  if text == "while a: b\nc" then .ok (.list [bareLoop,nameDatum "c"])
  else .ok (.list [.record [("type",.text "def"),("value",.list [lineEnd "    ",nameDatum "b",
    lineEnd "",lineEnd ""])]])

/-- What the length of the run at the end of a new body comes from, for the element of a document. -/
def Store.takesGap (t : Store) (n : NodeId) (text : String) : Bool :=
  (assign (.node n) "value" (.text text)).succeeds gapParser t &&
  (match attr (.node n) "next" t with
  | .ok next => t.present next
  | _ => false) &&
  match parseWithin "def a():\n" (blockText text) "\n" [.index 0,.name "value"] gapParser t with
  | .ok d _ =>
    match buildList d (.node n) (some (.field .value)) gapParser t with
    | .ok l t₁ =>
      match items (.list l) t₁ with
      | .ok vs => vs.length == 4 && (vs.reverse.takeWhile (fun v => match v with | .node m => t₁.isEnd m | _ => false)).length == 2
      | .error _ => false
    | .error _ _ => false
  | .error _ _ => false

/-- The body of a loop with a name after it is given by a text that ends in two line ends, and has five of them then. -/
theorem assign_block_gap_two : ∃ w t root n u held l lc, ∃ ms : List NodeId,
    newDocument "while a: b\nc" gapParser .empty = .ok (.view w) t ∧ behind (.view w) t = .ok (.list root) ∧
    t.Reaches root [.index 0] (.node n) ∧ assign (.node n) "value" (.text "    b\n\n") gapParser t = .ok () u ∧
    look n (.field .value) u = .ok held ∧ u.Covers held l ∧ u.lists[l.index]? = some lc ∧ lc.items = ms.map .node ∧
    trailing u.isEnd ms = 5 := by
  obtain ⟨w,t,root,n,c,h,hbehind,hreach,hc,hkind,hone⟩ := newDocument_tested "while a: b\nc" gapParser .whileLoop
    (fun _ t n => (t.nodes[n.index]?.map (·.place) == some (some .root)) && t.takesGap n "    b\n\n") (by decide +kernel) rfl
    (by decide +kernel)
  simp only [hc,Option.map_some,Store.takesGap,Bool.and_eq_true,beq_iff_eq,Option.some.injEq] at hone
  obtain ⟨hplace,⟨hrun,hfollowed⟩,hbody⟩ := hone
  obtain ⟨_,u,hassign⟩ := Edit.succeeds_iff.mp hrun
  obtain ⟨root',hbehind',hgap⟩ := assign_block_gap h
  cases hbehind.symm.trans hbehind'
  obtain ⟨next,above,d,l,t₁,ms,held,lc,ends,wanted,there,hnext,-,hparse,hbuild,-,hitems,hheld,hcovers,hlc,hlcitems,rfl,rfl,hcount,-⟩ :=
    hgap [.index 0] n c "    b\n\n" u hreach hc (by rw [hkind]; rfl) hassign
  simp only [hnext] at hfollowed
  simp only [hparse,hbuild,hitems,List.length_map,Bool.and_eq_true,beq_iff_eq] at hbody
  obtain ⟨hsize,htrailing⟩ := hbody
  have htwo : trailing t₁.isEnd ms = 2 := by
    rwa [← List.map_reverse,List.takeWhile_map,List.length_map] at htrailing
  refine ⟨w,t,root,n,u,held,l,lc,ms ++ ends,h,hbehind,hreach,hassign,hheld,hcovers,hlc,hlcitems,?_⟩
  rw [hcount,htwo,hsize,hplace,hfollowed]
  rfl

end Padding

end CodeTree
