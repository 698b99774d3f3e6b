import CodeTree.Proofs.Attaching
import CodeTree.Proofs.FreshLines
import CodeTree.Proofs.Refitting
import CodeTree.Proofs.LineShifts

/-! # Blocks that are assigned

The body that a text describes is moved as a whole: every line of it is indented anew by the same number of columns, so
that the first line stands four columns behind the statement that gets the body. What is added to the body afterwards
begins no line of it.
-/
namespace CodeTree
variable {o s t u : Store} {p : Parser} {shift : Shift} {i fuel first : Nat} {n m x y : NodeId} {place : Attr} {k : Nat}
  {text : String} {r : Unit} {v parent : Value}

section Carrying
variable {l : ListId} {lc : ListCell}

/-- Trees stay trees as long as the cells that they consist of stay as they are: their nodes, the lists that hang at
them, and what shows these. -/
theorem Store.TreeFrom.carry (h : s.TreeFrom first i n)
    (hnodes : ∀ {m : NodeId} {c}, first ≤ m.index → s.nodes[m.index]? = some c → t.nodes[m.index]? = some c)
    (hlists : ∀ {l : ListId} {c}, s.lists[l.index]? = some c → (c.flavour = .nodes → ∃ m, c.parent = .node m ∧ first ≤ m.index) →
      t.lists[l.index]? = some c)
    (hviews : ∀ {w : ViewId} {c}, s.views[w.index]? = some c → ∃ shown, t.views[w.index]? = some { c with items := shown }) :
    t.TreeFrom first i n := by
  induction i generalizing n with
  | zero => exact h.elim
  | succ i ih =>
    obtain ⟨hle,c,hc⟩ := h
    refine ⟨hle,c,hc.carry (hnodes hle hc.cell) (fun hm ⟨d,hd,hhangs⟩ => ⟨d,hnodes hm.le hd,hhangs⟩)
      (fun hl hparent => hlists hl (fun hflavour => ⟨n,hparent hflavour,hle⟩)) ?_ (fun m hm => ih hm)⟩
    rintro v l (rfl | ⟨w,vc,rfl,hw,htarget,hextra⟩)
    · exact .inl rfl
    · obtain ⟨shown,hw'⟩ := hviews hw
      exact .inr ⟨w,_,rfl,hw',htarget,hextra⟩

end Carrying

theorem Store.Tree.lt_size (h : t.Tree i n) : n.index < t.nodes.size := by
  obtain ⟨j,c,rfl,hc⟩ := h.opens
  exact Store.lt_nodes_of_get hc.cell

section Finishing
variable {l : ListId} {lc : ListCell} {ends ends' inside : List NodeId}

/-- New line ends are put behind a list, and nothing else is changed. Trees that do not have the list stay what they
are. -/
structure Store.Appends (first : Nat) (l : ListId) (ends : List NodeId) (s t : Store) : Prop where
  mark : s.mark ≤ t.mark
  node : ∀ {m : NodeId} {c}, s.nodes[m.index]? = some c → t.nodes[m.index]? = some c
  list : ∀ {c}, s.lists[l.index]? = some c → t.lists[l.index]? = some { c with items := c.items ++ ends.map .node }
  others : ∀ {k : ListId} {c}, k ≠ l → s.lists[k.index]? = some c → t.lists[k.index]? = some c
  view : ∀ {w : ViewId} {c}, s.views[w.index]? = some c → t.views[w.index]? = some c
  tree : ∀ {i m}, s.TreeFrom first i m → t.TreeFrom first i m
  fresh : ∀ m ∈ ends, s.nodes.size ≤ m.index ∧ t.isEnd m = true ∧ m.index < t.nodes.size ∧ t.Finished m .endl ∧
    (first ≤ s.nodes.size → t.TreeFrom first t.nodes.size m)

theorem Store.Appends.refl (first : Nat) (l : ListId) (s : Store) : s.Appends first l [] s :=
  ⟨Mark.le_refl _,id,fun h => by simpa using h,fun _ h => h,id,id,by simp⟩

theorem Store.Appends.isEnd (h : s.Appends first l ends t) (hm : m.index < s.nodes.size) : t.isEnd m = s.isEnd m := by
  unfold Store.isEnd
  rw [h.node (Array.getElem?_eq_getElem hm),Array.getElem?_eq_getElem hm]

theorem Store.Appends.trans (h : s.Appends first l ends t) (h' : t.Appends first l ends' u) :
    s.Appends first l (ends ++ ends') u where
  mark := Mark.le_trans h.mark h'.mark
  node hc := h'.node (h.node hc)
  list hc := by
    rw [h'.list (h.list hc),List.map_append,List.append_assoc]
  others hk hc := h'.others hk (h.others hk hc)
  view hc := h'.view (h.view hc)
  tree hm := h'.tree (h.tree hm)
  fresh m hm := by
    rcases List.mem_append.mp hm with hm | hm
    · obtain ⟨hle,hend,hlt,⟨c,hc,hcell⟩,htree⟩ := h.fresh m hm
      exact ⟨hle,(h'.isEnd hlt).trans hend,Nat.lt_of_lt_of_le hlt h'.mark.1,⟨c,h'.node hc,hcell⟩,
        fun hfirst => (h'.tree (htree hfirst)).mono h'.mark.1⟩
    · obtain ⟨hle,hend,hlt,hcell,htree⟩ := h'.fresh m hm
      exact ⟨Nat.le_trans h.mark.1 hle,hend,hlt,hcell,fun hfirst => htree (Nat.le_trans hfirst h.mark.1)⟩

/-- A line end is built and put behind a list that hangs at no tree. -/
theorem addLineEnd_appends (hl : s.lists[l.index]? = some lc) (hflavour : lc.flavour = .nodes)
    (hparent : ∀ m, lc.parent = .node m → m.index < first)
    (h : build (lineEnd "") .none none p s = .ok n t) :
    s.Appends first l [n] (t.mapList l (fun c => { c with items := c.items ++ [.node n] })) := by
  have hgrows := (build_adds (lineEnd "") .none none).grows h
  have hkept := Kept.of_run h
  have hcarry : ∀ {i m}, t.TreeFrom first i m →
      (t.mapList l (fun c => { c with items := c.items ++ [.node n] })).TreeFrom first i m := by
    intro i m hm
    refine hm.carry (fun _ hc => hc) (fun {k c} hc hhung => ?_) (fun {w c} hw => ⟨c.items,hw⟩)
    rw [Store.mapList_get,if_neg]
    · exact hc
    · intro heq
      rw [← heq,hgrows.carries.list hl] at hc
      cases hc
      obtain ⟨m,hm,hle⟩ := hhung hflavour
      exact absurd (hparent m hm) (by omega)
  refine ⟨?_,hgrows.carries.node,fun {c} hc => ?_,fun {k c} hk hc => ?_,fun hc => (hgrows.views _ (Store.lt_views_of_get hc)).trans hc,
    fun {i m} hm => ?_,fun m hm => ?_⟩
  · simpa [Mark.le_def] using hgrows.mark
  · rw [Store.mapList_get,if_pos rfl,hgrows.carries.list hc]
    rfl
  · rw [Store.mapList_get,if_neg]
    · exact hgrows.carries.list hc
    · exact fun heq => hk (congrArg ListId.mk heq.symm)
  · exact hcarry (hm.carry (fun _ hc => hgrows.carries.node hc) (fun hc _ => hgrows.carries.list hc)
      (fun hw => hgrows.carries.view hw))
  · cases List.mem_singleton.mp hm
    obtain ⟨_,c,hn,hc,hkind,-⟩ := lineEnd_loose h
    cases hn
    obtain ⟨_,k,c',-,hg⟩ := hkept.grown
    cases hg.cell.symm.trans hc
    obtain rfl := hg.kind.symm.trans hkind
    refine ⟨Nat.le_of_eq hkept.index.symm,?_,Store.lt_nodes_of_get hc,hg.toPlanted.finished,fun hfirst => ?_⟩
    · change (t.nodes[n.index]?).any _ = true
      rw [hc]
      exact beq_iff_eq.mpr hkind
    · exact hcarry (built_tree _ hkept hfirst (Nat.le_add_left _ _))

theorem addLineEnds_appends (hl : s.lists[l.index]? = some lc) (hflavour : lc.flavour = .nodes)
    (hparent : ∀ m, lc.parent = .node m → m.index < first)
    (h : addLineEnds l k p s = .ok r t) : ∃ ends, ends.length = k ∧ s.Appends first l ends t := by
  induction k generalizing s lc with
  | zero =>
    obtain ⟨-,rfl⟩ := Edit.pure_ok.mp h
    exact ⟨[],rfl,.refl first l s⟩
  | succ k ih =>
    unfold addLineEnds at h
    obtain ⟨n,s₁,hbuild,h⟩ := Edit.bind_ok.mp h
    obtain ⟨_,s₂,hupdate,h⟩ := Edit.bind_ok.mp h
    obtain rfl := Edit.updateList_ok.mp hupdate
    have hone := addLineEnd_appends hl hflavour hparent hbuild
    obtain ⟨ends,rfl,hends⟩ := ih (hone.list hl) hflavour hparent h
    exact ⟨n :: ends,rfl,hone.trans hends⟩

theorem Read.allM_true {α : Type} {f : α → Read Bool} {xs : List α} (h : xs.allM f s = .ok true) :
    ∀ x ∈ xs, f x s = .ok true := by
  induction xs with
  | nil => simp
  | cons x xs ih =>
    rw [List.allM] at h
    obtain ⟨b,hb,h⟩ := Read.bind_ok.mp h
    cases b with
    | true =>
      intro y hy
      rcases List.mem_cons.mp hy with rfl | hy
      · exact hb
      · exact ih h y hy
    | false => cases Read.pure_ok.mp h

theorem endsInLineEnds_last (hk : 0 < k) (htrees : ∀ m ∈ inside, s.Tree i m)
    (h : endsInLineEnds k (inside.map .node) s = .ok true) (hlast : inside.getLast? = some m) : s.isEnd m = true := by
  have hmem : m ∈ inside.drop (inside.length - k) := by
    obtain ⟨ys,rfl⟩ := List.getLast?_eq_some_iff.mp hlast
    rw [List.length_append,List.length_singleton,List.drop_append_of_le_length (by omega)]
    simp
  have hends := Read.allM_true h (.node m) (by simpa [← List.map_drop] using hmem)
  rw [(htrees m (List.mem_of_getLast? hlast)).hasType_endl] at hends
  exact Except.ok.inj hends

/-- The text that is parsed for a body. -/
def blockText (text : String) : String :=
  if leadingSpaces (dropBlankLine text) = 0 then
    Text.stripRight ("    " ++ String.intercalate "\n    " (Text.lines (dropBlankLine text)))
  else dropBlankLine text

/-- Brings lines from one indentation to another. -/
def shiftTo (found wanted : Nat) (inside : List Value) : Edit Unit :=
  if found > wanted then shiftLines (.less (.int (found - wanted : Nat))) inside
  else if found < wanted then shiftLines (.more (.int (wanted - found : Nat))) inside
  else pure ()

/-- Gives a body the line ends that what follows needs. -/
def finishBlock (n : NodeId) (l : ListId) (inside : List Value) : Edit ListId := do
  if ← needsGap n then
    if !(← endsInLineEnds 1 inside) then addLineEnds l 1
    else if !(← endsInLineEnds 2 inside) then addLineEnds l 2
    else if !(← endsInLineEnds 3 inside) then addLineEnds l 3
  else if ← truth (← nextOf n) then
    if !(← endsInLineEnds 2 inside) then addLineEnds l 1
    else if !(← endsInLineEnds 3 inside) then addLineEnds l 2
    let indent ← indentOf n
    match (← Read.list l).items.getLast? with
    | some last => setIndent last indent
    | none => throw .outOfRange
  return l

/-- A body is built, moved, and given its line ends. -/
theorem blockOf_eq (n : NodeId) (text : String) (parent : Value) (place : Option Attr) : blockOf n text parent place = (do
    let margin ← lengthOf (← indentOf n)
    let d ← parseWithin "def a():\n" (blockText text) "\n" [.index 0, .name "value"]
    let l ← buildList d parent place
    let inside := (← Read.list l).items
    match inside with
    | [] => throw .outOfRange
    | first :: _ =>
      let found ← lengthOf (← attr first "indent")
      shiftTo found (margin + 4) inside
      finishBlock n l inside) := by
  unfold blockOf blockText shiftTo finishBlock
  dsimp only
  refine bind_congr (fun indent => ?_)
  refine bind_congr (fun margin => ?_)
  refine bind_congr (fun d => ?_)
  refine bind_congr (fun l => ?_)
  refine bind_congr (fun lc => ?_)
  obtain ⟨flavour,inside,parent,place,extra⟩ := lc
  dsimp only
  cases inside with
  | nil => rfl
  | cons first rest =>
    dsimp only
    refine bind_congr (fun indent => ?_)
    refine bind_congr (fun found => ?_)
    split
    · rfl
    · split
      · rfl
      · rfl

/-- How many line ends a body is given. -/
def missingEnds (n : NodeId) (inside : List Value) : Read Nat := do
  if ← needsGap n then
    if !(← endsInLineEnds 1 inside) then return 1
    else if !(← endsInLineEnds 2 inside) then return 2
    else if !(← endsInLineEnds 3 inside) then return 3
    else return 0
  else if ← truth (← nextOf n) then
    if !(← endsInLineEnds 2 inside) then return 1
    else if !(← endsInLineEnds 3 inside) then return 2
    else return 0
  else return 0

/-- The line ends that a body lacks are put behind it, and then the last of its items may be indented, which is a line end. -/
def Store.Trails (p : Parser) (first : Nat) (n : NodeId) (l : ListId) (inside : List NodeId) (s u : Store) : Prop :=
  ∃ ends s₁, s.Appends first l ends s₁ ∧ missingEnds n (inside.map .node) s = .ok ends.length ∧
    (u = s₁ ∨ ∃ m v, (inside ++ ends).getLast? = some m ∧ s₁.isEnd m = true ∧ indentOf n s₁ = .ok v ∧
      setIndent (.node m) v p s₁ = .ok () u)

/-- How many line ends a body is given, by the first number of them that it does not end in. -/
def lacking (xs : List Value) : List (Nat × Nat) → Read Nat
  | [] => pure 0
  | (wanted,count) :: tests => do if !(← endsInLineEnds wanted xs) then return count else lacking xs tests

/-- Gives a body the line ends that it lacks, and goes on. -/
def supply (l : ListId) (xs : List Value) (rest : Edit ListId) : List (Nat × Nat) → Edit ListId
  | [] => rest
  | (wanted,count) :: tests => do
    if !(← endsInLineEnds wanted xs) then
      addLineEnds l count
      rest
    else supply l xs rest tests

theorem supply_run {l' : ListId} {xs : List Value} {rest : Edit ListId} {tests : List (Nat × Nat)} (hcounts : ∀ q ∈ tests, 0 < q.2)
    (h : supply l xs rest tests p s = .ok l' u) : ∃ count s₁, lacking xs tests s = .ok count ∧
      addLineEnds l count p s = .ok () s₁ ∧ rest p s₁ = .ok l' u ∧
      (count = 0 → ∀ q ∈ tests, endsInLineEnds q.1 xs s = .ok true) := by
  induction tests with
  | nil => exact ⟨0,s,rfl,rfl,h,by simp⟩
  | cons q tests ih =>
    obtain ⟨there,hthere,h⟩ := Edit.ask_ok.mp h
    cases there with
    | false =>
      obtain ⟨_,s₁,hadd,h⟩ := Edit.bind_ok.mp h
      exact ⟨q.2,s₁,Read.bind_known hthere,hadd,h,fun hnone => absurd hnone (Nat.ne_of_gt (hcounts q List.mem_cons_self))⟩
    | true =>
      obtain ⟨count,s₁,hcount,hadd,hrest,hall⟩ := ih (List.forall_mem_cons.mp hcounts).2 h
      exact ⟨count,s₁,(Read.bind_known hthere).trans hcount,hadd,hrest,fun hnone => List.forall_mem_cons.mpr ⟨hthere,hall hnone⟩⟩

theorem finishBlock_run {l' : ListId} (hl : s.lists[l.index]? = some lc) (hitems : lc.items = inside.map .node)
    (hne : inside ≠ []) (hflavour : lc.flavour = .nodes) (hparent : ∀ m, lc.parent = .node m → m.index < first)
    (htrees : ∀ m ∈ inside, s.Tree i m)
    (h : finishBlock n l (inside.map .node) p s = .ok l' u) : l' = l ∧ s.Trails p first n l inside u := by
  unfold finishBlock at h
  obtain ⟨gap,hgap,h⟩ := Edit.ask_ok.mp h
  cases gap with
  | true =>
    have h : supply l (inside.map .node) (pure l) [(1,1),(2,2),(3,3)] p s = .ok l' u := h
    obtain ⟨count,s₁,hcount,hadd,h,-⟩ := supply_run (by decide) h
    obtain ⟨rfl,rfl⟩ := Edit.pure_ok.mp h
    obtain ⟨ends,rfl,hends⟩ := addLineEnds_appends hl hflavour hparent hadd
    exact ⟨rfl,ends,_,hends,(Read.bind_known hgap).trans hcount,.inl rfl⟩
  | false =>
  obtain ⟨next,hnext,h⟩ := Edit.ask_ok.mp h
  obtain ⟨more,hmore,h⟩ := Edit.ask_ok.mp h
  have hmissing : missingEnds n (inside.map .node) s =
      if more then lacking (inside.map .node) [(2,1),(3,2)] s else .ok 0 := by
    refine (Read.bind_known hgap).trans ((Read.bind_known hnext).trans ((Read.bind_known hmore).trans ?_))
    cases more <;> rfl
  cases more with
  | false =>
    obtain ⟨rfl,rfl⟩ := Edit.pure_ok.mp h
    exact ⟨rfl,[],_,.refl first l s,hmissing,.inl rfl⟩
  | true =>
    have h : supply l (inside.map .node) (do
        let indent ← indentOf n
        match (← Read.list l).items.getLast? with
        | some last => setIndent last indent; pure l
        | none => throw .outOfRange; pure l) [(2,1),(3,2)] p s = .ok l' u := h
    obtain ⟨count,s₁,hcount,hadd,h,hall⟩ := supply_run (by decide) h
    obtain ⟨ends,rfl,hends⟩ := addLineEnds_appends hl hflavour hparent hadd
    obtain ⟨v,hv,h⟩ := Edit.ask_ok.mp h
    obtain ⟨c,hc,h⟩ := Edit.ask_ok.mp h
    cases (Read.list_ok.mp hc).symm.trans (hends.list hl)
    obtain ⟨m,hm⟩ : ∃ m, (inside ++ ends).getLast? = some m := ⟨_,List.getLast?_eq_some_getLast (by simp [hne])⟩
    simp only [hitems,← List.map_append,List.getLast?_map,hm,Option.map_some] at h
    obtain ⟨_,_,hset,h⟩ := Edit.bind_ok.mp h
    obtain ⟨rfl,rfl⟩ := Edit.pure_ok.mp h
    refine ⟨rfl,ends,s₁,hends,hmissing.trans hcount,.inr ⟨m,v,hm,?_,hv,hset⟩⟩
    by_cases hnil : ends = []
    · -- Without new ones the last item is a line end that was there.
      rw [hnil,List.append_nil] at hm
      have hthree := hall (by rw [hnil]; rfl) (3,2) (by simp)
      exact (hends.isEnd (htrees m (List.mem_of_getLast? hm)).lt_size).trans (endsInLineEnds_last (by decide) htrees hthree hm)
    · rw [List.getLast?_append_of_ne_nil _ hnil] at hm
      exact (hends.fresh m (List.mem_of_getLast? hm)).2.1

end Finishing

section Bodies
variable {l : ListId} {ms : List NodeId} {found wanted : Nat}

theorem Store.Sprung.orders (hms : ∀ m ∈ ms, o.Sprung s (.node m)) : ∃ orders,
    s.Orders ms orders := by
  induction ms with
  | nil => exact ⟨[],.nil⟩
  | cons m ms ih =>
    obtain ⟨order,horder,-⟩ := (hms m List.mem_cons_self).order
    obtain ⟨orders,horders⟩ := ih (fun x hx => hms x (List.mem_cons_of_mem m hx))
    exact ⟨order :: orders,.cons horder horders⟩

/-- The indentations of all nodes may change. -/
def Freedom.indents : Freedom := ⟨fun _ a => a = .field .indent,fun _ => False,fun _ => False⟩

/-- Every line that begins with as many spaces as are found, or more, is moved by the same number of columns. -/
structure Store.Aligns (o : Store) (found wanted : Nat) (starts : List NodeId) (s t : Store) : Prop where
  reindents : o.Reindents s t
  frame : s.Frame .indents t
  ends : ∀ x, t.isEnd x = s.isEnd x
  moved : ∀ x ∈ starts, ∀ j, found ≤ j → s.indent? x = some (.text (spaces j)) →
    t.indent? x = some (.text (spaces (j + wanted - found)))

theorem Store.Moves.aligns {xs : List NodeId} (h : o.Moves shift xs s t) (hframe : s.Frame .indents t)
    (hshift : ∀ j, found ≤ j → shift.apply (.text (spaces j)) = .ok (.text (spaces (j + wanted - found)))) :
    o.Aligns found wanted xs s t := by
  refine ⟨h.reindents,hframe,h.ends,fun x hx j hj hindent => ?_⟩
  obtain ⟨a,b,ha,hb,hmoved⟩ := h.moved x hx
  cases hindent.symm.trans ha
  cases hb.symm.trans (hshift j hj)
  obtain ⟨c,hc,-⟩ := Option.bind_eq_some_iff.mp hindent
  rw [Store.indent?,hmoved,hc]
  exact NodeCell.stored_put_self _ _ _

theorem shiftTo_aligns (hms : ∀ m ∈ ms, o.Sprung s (.node m)) (h : shiftTo found wanted (ms.map .node) p s = .ok r t) :
    ∃ orders,
      s.Orders ms orders ∧
      o.Aligns found wanted (s.lineStarts orders.flatten) s t := by
  have hshifted : ∀ {shift : Shift},
      (∀ j, found ≤ j → shift.apply (.text (spaces j)) = .ok (.text (spaces (j + wanted - found)))) →
      shiftLines shift (ms.map .node) p s = .ok r t → ∃ orders,
        s.Orders ms orders ∧
        o.Aligns found wanted (s.lineStarts orders.flatten) s t := by
    intro shift hshift h
    have hframe := (Edit.Meets.frame_ok ((lenient_frame (F := .indents) (fun _ => rfl)).shiftLines _ _) trivial h).1
    have h : shiftItems shift ((none : Option NodeId).elim .none .node) (([] : List NodeId).map .node) (ms.map .node) p s =
      .ok r t := h
    obtain ⟨orders,horders,xs,hmoves,-,hmem⟩ := shiftItems_moves (by simp) hms h
    have halign := hmoves.aligns hframe hshift
    refine ⟨orders,horders,halign.reindents,hframe,halign.ends,fun x hx => halign.moved x ?_⟩
    simpa using (hmem x).mpr (.inl hx)
  unfold shiftTo at h
  split at h
  · next hmore =>
    refine hshifted (fun j hj => ?_) h
    have hsame : j - (found - wanted) = j + wanted - found := by omega
    rw [Shift.less_spaces,hsame]
  · split at h
    · next hless =>
      refine hshifted (fun j hj => ?_) h
      have hsame : j + (wanted - found) = j + wanted - found := by omega
      rw [Shift.more_spaces,hsame]
    · obtain ⟨-,rfl⟩ := Edit.pure_ok.mp h
      obtain ⟨orders,horders⟩ := Store.Sprung.orders hms
      refine ⟨orders,horders,.refl _,.refl _ _,fun _ => rfl,fun x hx j hj hindent => ?_⟩
      have hsame : j + wanted - found = j := by omega
      rw [hsame]
      exact hindent

theorem Store.lt_of_indent (h : s.indent? x = some v) : x.index < s.nodes.size := by
  obtain ⟨c,hc,-⟩ := Option.bind_eq_some_iff.mp h
  exact Store.lt_nodes_of_get hc

theorem Store.Frame.indent {F : Freedom} (h : s.Frame F t) (hF : ¬ F.attr x (.field .indent)) (hx : s.indent? x = some v) :
    t.indent? x = some v := by
  obtain ⟨c,hc,hv⟩ := Option.bind_eq_some_iff.mp hx
  obtain ⟨d,hd,hkeeps⟩ := h.node hc
  exact Option.bind_eq_some_iff.mpr ⟨d,hd,(hkeeps.stored _ hF).trans hv⟩

theorem setIndent_frame (h : setIndent (.node m) v p s = .ok r t) : s.Frame (.only m (.field .indent)) t := by
  have hwithin : Within (.only m (.field .indent)) (setIndent (.node m) v) :=
    Within.setIndent (F := .only m (.field .indent)) (fun _ hk => ⟨(Value.node.inj hk).symm,rfl⟩) v
  exact (hwithin.frame_ok trivial h).1

theorem Store.Trails.indent (h : s.Trails p first n l ms u) (hms : ∀ m ∈ ms, m.index < s.nodes.size)
    (hx : s.indent? x = some v) (hne : ∀ m, ms.getLast? = some m → s.isEnd m = true → x ≠ m) : u.indent? x = some v := by
  obtain ⟨ends,s₁,hends,-,hu⟩ := h
  have hkept : s₁.indent? x = some v := by
    obtain ⟨c,hc,hv⟩ := Option.bind_eq_some_iff.mp hx
    exact Option.bind_eq_some_iff.mpr ⟨c,hends.node hc,hv⟩
  rcases hu with rfl | ⟨m,v,hlast,hend,-,hset⟩
  · exact hkept
  · refine (setIndent_frame hset).indent (fun h => ?_) hkept
    by_cases hnil : ends = []
    · rw [hnil,List.append_nil] at hlast
      exact hne m hlast ((hends.isEnd (hms m (List.mem_of_getLast? hlast))).symm.trans hend) h.1
    · rw [List.getLast?_append_of_ne_nil _ hnil] at hlast
      have hlt := Store.lt_of_indent hx
      have hle := (hends.fresh m (List.mem_of_getLast? hlast)).1
      rw [← h.1] at hle
      omega

theorem Store.Trails.items {lc : ListCell} (h : s.Trails p first n l ms u) (hl : s.lists[l.index]? = some lc) :
    ∃ (ends : List NodeId) (d : ListCell), u.lists[l.index]? = some d ∧ d.items = lc.items ++ ends.map .node := by
  obtain ⟨ends,s₁,hends,-,rfl | ⟨m,v,-,-,-,hset⟩⟩ := h
  · exact ⟨ends,_,hends.list hl,rfl⟩
  · obtain ⟨d,hd,hkeeps⟩ := (setIndent_frame hset).list (hends.list hl)
    exact ⟨ends,d,hd,hkeeps.items id⟩

theorem Store.Reindents.size (h : o.Reindents s t) : t.nodes.size = s.nodes.size := by
  have hdepth := h.depth
  unfold Store.depth at hdepth
  rw [h.lists,h.views] at hdepth
  omega

theorem parseWithin_state {before after : String} {keys : List Key} {d : Datum}
    (h : parseWithin before text after keys p s = .ok d t) : s = t := by
  obtain ⟨answer,_,hparse,h⟩ := Edit.bind_ok.mp h
  obtain ⟨-,rfl⟩ := Edit.parse_ok.mp hparse
  exact (Edit.lift_ok.mp h).2

/-- The body that a text describes: before and after its lines are moved, and with the line ends that are missing. -/
theorem blockOf_run (hparent : ∀ m, parent = .node m → m.index < s.nodes.size)
    (h : blockOf n text parent (some place) p s = .ok l u) : ∃ indentation margin d s₁ ms orders s₂ found,
      indentOf n s = .ok indentation ∧ lengthOf indentation s = .ok margin ∧
      parseWithin "def a():\n" (blockText text) "\n" [.index 0,.name "value"] p s = .ok d s ∧
      buildList d parent (some place) p s = .ok l s₁ ∧
      s₁.lists[l.index]? = some ⟨.nodes,ms.map .node,parent,some place,[]⟩ ∧
      s₁.Siblings (s₁.TreeFrom s.nodes.size s₁.nodes.size) parent place ms ∧
      s₁.Orders ms orders ∧
      (∀ m ∈ ms.head?, ∃ v, attr (.node m) "indent" s₁ = .ok v ∧ lengthOf v s₁ = .ok found) ∧
      s.Aligns found (margin + 4) (s₁.lineStarts orders.flatten) s₁ s₂ ∧ s₂.Trails p s.nodes.size n l ms u := by
  rw [blockOf_eq] at h
  obtain ⟨indentation,hindent,h⟩ := Edit.ask_ok.mp h
  obtain ⟨margin,hmargin,h⟩ := Edit.ask_ok.mp h
  obtain ⟨d,s',hparse,h⟩ := Edit.bind_ok.mp h
  obtain rfl : s = s' := parseWithin_state hparse
  obtain ⟨l',s₁,hbuild,h⟩ := Edit.bind_ok.mp h
  obtain ⟨hle,ms,hl,hms⟩ := buildList_row (.refl s) hbuild
  obtain ⟨lc,hlc,h⟩ := Edit.ask_ok.mp h
  cases (Read.list_ok.mp hlc).symm.trans hl
  cases ms with
  | nil => exact absurd h Edit.throw_ok
  | cons m ms =>
    obtain ⟨v,hv,h⟩ := Edit.ask_ok.mp h
    obtain ⟨found,hfound,h⟩ := Edit.ask_ok.mp h
    obtain ⟨_,s₂,hshift,h⟩ := Edit.bind_ok.mp h
    have hdepth : s₁.nodes.size < s₁.depth := by
      unfold Store.depth
      omega
    have hsprung : ∀ x ∈ m :: ms, s.Sprung s₁ (.node x) := fun x hx => ⟨x,_,rfl,hdepth,hms.each x hx⟩
    obtain ⟨orders,horders,haligns⟩ := shiftTo_aligns hsprung hshift
    have hl₂ : s₂.lists[l'.index]? = some ⟨.nodes,(m :: ms).map .node,parent,some place,[]⟩ := by
      rw [haligns.reindents.lists]
      exact hl
    obtain ⟨rfl,htrails⟩ := finishBlock_run hl₂ rfl (by simp) rfl hparent
      (fun x hx => (haligns.reindents.trees (hms.each x hx)).tree) h
    exact ⟨indentation,margin,d,s₁,m :: ms,orders,s₂,found,hindent,hmargin,hparse,hbuild,hl,hms,horders,
      fun _ hm => ⟨v,Option.some.inj hm ▸ hv,hfound⟩,haligns,htrails⟩

end Bodies

section Assigning
variable {w : ViewId} {root l : ListId} {height : Nat} {c : NodeCell} {text : String} {d : Datum} {place : Option Attr}

theorem indentOf_attr (h : t.Document w root height) (hn : t.Member w n) :
    (indentOf n).Returns t (fun v => attr (.node n) "indentation" t = .ok v) := by
  have hindent : (indentationOf n).Returns t (fun v => indentationOf n t = .ok v) := by
    obtain ⟨v,hv,-⟩ : (indentationOf n).Returns t (fun _ => True) := by
      refine .bind (h.indentationNode (R := fun _ _ => True) (fun _ _ => trivial) (fun _ _ _ => trivial) hn) (fun v hv => ?_)
      rcases hv with rfl | ⟨k,rfl,hk,hend,-⟩
      · exact .pure trivial
      · have htree := h.member hk
        obtain ⟨i,c,rfl,hc⟩ := htree.opens
        rw [hc.isEnd,beq_iff_eq] at hend
        obtain ⟨x,hx,-⟩ := hc.bears .text .indent .always (by rw [hend]; decide)
        exact .of_ok (look_stored hc.cell hx) trivial
    exact ⟨v,hv,hv⟩
  refine hindent.orElse.imp (fun v hv => ?_)
  obtain ⟨D,hD⟩ := t.depth_pos
  have hattr : (attr (.node n) "indentation").Returns t (fun v => indentationOf n t = .ok v) := by
    refine .known (a := t.depth) rfl ?_
    rw [hD]
    exact hindent.orElse
  obtain ⟨v',hattr,hv'⟩ := hattr
  cases hv.symm.trans hv'
  exact hattr

theorem buildList_snapshot (h : buildList d parent place p s = .ok l t) :
    snapshot (.list l) t = .ok (settled d).asItems := by
  obtain ⟨-,vs,ds,b,hl,hrow,hb,hds⟩ := buildList_kept h
  have hsettled : (settled d).asItems = .list (ds.map settled) := by
    rcases hds with rfl | ⟨rfl,rfl | rfl⟩
    · simp [settled,settledEach_eq,Datum.asItems]
    · rfl
    · rfl
  rw [hsettled]
  exact snapshot_list hl rfl hrow (Nat.le_of_eq hb)

theorem listFor_block {r : Value} (hc : s.nodes[n.index]? = some c) (hblock : c.kind.hasBlock = true)
    (h : listFor (.node n) (.text text) (.node n) (some (.field .value)) p s = .ok r t) :
    ∃ l, r = .list l ∧ blockOf n text (.node n) (some (.field .value)) p s = .ok l t := by
  obtain ⟨l,u,hlist,h⟩ := Edit.bind_ok.mp h
  obtain ⟨rfl,rfl⟩ := Edit.pure_ok.mp h
  refine ⟨l,rfl,?_⟩
  replace hlist := (Edit.node_known hc).symm.trans hlist
  generalize c.kind = k at hlist hblock
  cases k <;> first | exact hlist | cases hblock

theorem Kind.layout_block (k : Kind) (h : k.hasBlock = true) : .field .children .value .always ∈ k.layout := by
  cases k <;> first | decide | cases h

/-- A text that is assigned to the block of a node of a new document goes into a list, which the node then holds. -/
theorem assign_block_run {source : String} {keys : List Key} (h : newDocument source p s = .ok (.view w) t)
    (hroot : behind (.view w) t = .ok (.list root)) (hreach : t.Reaches root keys (.node n)) (hc : t.nodes[n.index]? = some c) (hblock : c.kind.hasBlock = true)
    (hassign : assign (.node n) "value" (.text text) p t = .ok () u) :
    ∃ l u₁, blockOf n text (.node n) (some (.field .value)) p t = .ok l u₁ ∧ ∀ lc (ms : List NodeId), u₁.lists[l.index]? = some lc →
      lc.items = ms.map .node → u₁.Frame (.only n (.field .value)) u ∧ u.lists[l.index]? = some lc ∧
      ∃ held, look n (.field .value) u = .ok held ∧ u.Covers held l := by
  obtain ⟨_,_,_,_,_,hg,-⟩ := newDocument_planted h hroot hreach hc
  obtain ⟨r,u₁,d,hfor,hd,hstored,hwrap⟩ := assign_list_run ⟨c,hc,rfl,hg.building,hg.texts,hg.lists,hg.children⟩
    (c.kind.layout_block hblock) rfl (assigned_field _ .value) hassign
  obtain ⟨l,rfl,hbody⟩ := listFor_block hc hblock hfor
  refine ⟨l,u₁,hbody,fun lc ms hlc hitems => ?_⟩
  have hnodes : ∀ x ∈ lc.items, ∃ m, x = .node m := by
    intro x hx
    rw [hitems] at hx
    obtain ⟨m,-,rfl⟩ := List.mem_map.mp hx
    exact ⟨m,rfl⟩
  have hput : u₁.Frame (.only n (.field .value)) (u₁.mapNode n (·.put (.field .value) (.list l))) :=
    Store.frame_put u₁ (F := .only n (.field .value)) ⟨rfl,rfl⟩ _
  obtain ⟨hframe,hl,d',held,hd',hheld,hcovers⟩ := wrapHeld_covers hd hstored hlc hnodes hwrap
  exact ⟨hput.trans hframe,hl,held,look_stored hd' hheld,hcovers⟩

/-- Assigning a text to the block of a node moves all lines of it alike. The text is read as a body, the nodes of it are
built, and their lines are moved by the same number of columns, so that the first line begins four columns behind the
node. -/
theorem assign_block_aligned {source : String} (h : newDocument source p s = .ok (.view w) t) :
    ∃ root, behind (.view w) t = .ok (.list root) ∧ ∀ keys n c text u, t.Reaches root keys (.node n) →
      t.nodes[n.index]? = some c → c.kind.hasBlock = true → assign (.node n) "value" (.text text) p t = .ok () u →
      ∃ indentation margin d l t₁ ms orders held lc ends, attr (.node n) "indentation" t = .ok indentation ∧
        lengthOf indentation t = .ok margin ∧
        parseWithin "def a():\n" (blockText text) "\n" [.index 0,.name "value"] p t = .ok d t ∧
        buildList d (.node n) (some (.field .value)) p t = .ok l t₁ ∧ snapshot (.list l) t₁ = .ok (settled d).asItems ∧
        items (.list l) t₁ = .ok (ms.map .node) ∧
        List.Forall₂ (fun m order => readingOrder (.node m) t₁ = .ok ⟨order.map .node,none⟩) ms orders ∧
        look n (.field .value) u = .ok held ∧ u.Covers held l ∧ u.lists[l.index]? = some lc ∧
        lc.items = (ms ++ ends).map .node ∧
        ∀ x y rest k, ms = x :: y :: rest → t₁.isEnd x = true → t₁.isEnd y = false →
          t₁.indent? x = some (.text (spaces k)) →
          (∀ z ∈ t₁.lineStarts orders.flatten, ∃ j, k ≤ j ∧ t₁.indent? z = some (.text (spaces j))) →
          x ∈ t₁.lineStarts orders.flatten ∧ u.indent? x = some (.text (spaces (margin + 4))) ∧
          ∀ z ∈ t₁.lineStarts orders.flatten, ∀ j, t₁.indent? z = some (.text (spaces j)) →
            u.indent? z = some (.text (spaces (j + (margin + 4) - k))) := by
  obtain ⟨root,height,hdoc⟩ := newDocument_rooted h
  refine ⟨root,hdoc.rooted,fun keys n c text u hreach hc hblock hassign => ?_⟩
  have hmember : t.Member w n := (hreach.member hdoc).1 n rfl
  obtain ⟨l,u₁,hbody,hheld⟩ := assign_block_run h hdoc.rooted hreach hc hblock hassign
  obtain ⟨indentation,margin,body,t₁,ms,orders,t₂,found,hindent,hmargin,hparse,hbuild,hl,hms,horders,hfound,haligns,htrails⟩ :=
    blockOf_run (fun m hm => Value.node.inj hm ▸ Store.lt_nodes_of_get hc) hbody
  obtain ⟨v,hv,hattr⟩ := indentOf_attr hdoc hmember
  cases hindent.symm.trans hv
  have hl₂ : t₂.lists[l.index]? = some ⟨.nodes,ms.map .node,.node n,some (.field .value),[]⟩ := by
    rw [haligns.reindents.lists]
    exact hl
  obtain ⟨ends,lc,hlc,hitems⟩ := htrails.items hl₂
  obtain ⟨hframe,hlu,held,hlook,hcovers⟩ := hheld lc (ms ++ ends) hlc (by rw [hitems,List.map_append])
  refine ⟨indentation,margin,body,l,t₁,ms,orders,held,lc,ends,hattr,hmargin,hparse,hbuild,buildList_snapshot hbuild,
    items_list_ok.mpr ⟨_,hl,rfl⟩,horders,hlook,hcovers,hlu,by rw [hitems,List.map_append],?_⟩
  rintro x y rest k rfl hx hy hk hstarts
  have hdepth : t₁.nodes.size < t₁.depth := by
    unfold Store.depth
    omega
  have hfirst := hms.first_start hdepth horders hx hk hy
  -- The first line tells how far all lines are moved.
  obtain rfl : found = k := by
    obtain ⟨v,hv,hlength⟩ := hfound x rfl
    obtain ⟨cx,hcx,hkx⟩ := Option.bind_eq_some_iff.mp hk
    cases hv.symm.trans (attr_stored hcx hkx)
    have hlength : (spaces k).length = found := Except.ok.inj hlength
    rw [← hlength,length_spaces]
  have hmoved : ∀ z ∈ t₁.lineStarts orders.flatten, ∀ j, t₁.indent? z = some (.text (spaces j)) →
      u.indent? z = some (.text (spaces (j + (margin + 4) - found))) := by
    intro z hz j hj
    obtain ⟨j',hle,hj'⟩ := hstarts z hz
    obtain rfl : j = j' := by
      have heq := congrArg String.length (Value.text.inj (Option.some.inj (hj.symm.trans hj')))
      simpa using heq
    refine hframe.indent (fun h => by cases h.2) (htrails.indent (fun m hm => ?_) (haligns.moved z hz j hle hj) ?_)
    · rw [haligns.reindents.size]
      exact (hms.each m hm).tree.lt_size
    · rintro m hlast hend rfl
      rw [haligns.ends] at hend
      exact hms.last_not_start (Store.lt_nodes_of_get hc) hdepth horders hlast hend hz
  refine ⟨hfirst,?_,hmoved⟩
  have hwanted := hmoved x hfirst found hk
  rwa [Nat.add_sub_cancel_left] at hwanted

/-- The number of spaces by which a node is indented. -/
def Store.width? (t : Store) (n : NodeId) : Option Nat :=
  match t.indent? n with
  | some (.text a) => if a == spaces a.length then some a.length else none
  | _ => none

theorem Store.indent_of_width (h : t.width? x = some k) : t.indent? x = some (.text (spaces k)) := by
  unfold Store.width? at h
  split at h
  · next a ha =>
    split at h
    · next heq =>
      cases h
      rw [ha,← beq_iff_eq.mp heq]
    · cases h
  · cases h

/-- A loop in one line, without a line end, as plain data. -/
def bareLoop : Datum := .record [("type",.text "while"),("first_formatting",.list [spaceDatum]),
  ("test",nameDatum "a"),("second_formatting",.list []),
  ("third_formatting",.list [spaceDatum]),("value",.list [nameDatum "b"]),
  ("else",.record [])]

/-- A parser that takes one text for a loop and all others for a function with a body of two lines. -/
def bodyParser : Parser := fun text =>
  if text == "while a: b" then .ok (.list [bareLoop])
  else .ok (.list [.record [("type",.text "def"),("value",.list [lineEnd "  ",nameDatum "b",
    lineEnd "    ",nameDatum "c",lineEnd "  "])]])

/-- Whether a list begins with a line end before something else, and no line is indented by less than two spaces. -/
def Store.fitsBody (t : Store) (l : ListId) : Bool :=
  (match items (.list l) t with
  | .ok (.node x :: .node y :: _) => t.isEnd x && !t.isEnd y && t.width? x == some 2
  | _ => false) && (List.range t.nodes.size).all (fun i => !t.isEnd ⟨i⟩ || (t.width? ⟨i⟩).any (2 ≤ ·))

/-- Whether a text gives such a body for a node that is not indented. -/
def Store.takesBody (t : Store) (n : NodeId) (text : String) : Bool :=
  (assign (.node n) "value" (.text text)).succeeds bodyParser t &&
  (match attr (.node n) "indentation" t with
  | .ok (.text a) => a == ""
  | _ => false) &&
  match parseWithin "def a():\n" (blockText text) "\n" [.index 0,.name "value"] bodyParser t with
  | .ok d _ =>
    match buildList d (.node n) (some (.field .value)) bodyParser t with
    | .ok l t₁ => t₁.fitsBody l
    | .error _ _ => false
  | .error _ _ => false

/-- The body of a loop is given by lines that are indented by two and by four spaces. The first of them ends up with four,
and the others are moved along with it. -/
theorem assign_block_aligned_loop : ∃ w t root n u d l t₁ x, ∃ orders : List (List NodeId),
    newDocument "while a: b" bodyParser .empty = .ok (.view w) t ∧ behind (.view w) t = .ok (.list root) ∧
    t.Reaches root [.index 0] (.node n) ∧ assign (.node n) "value" (.text "  b\n    c") bodyParser t = .ok () u ∧
    buildList d (.node n) (some (.field .value)) bodyParser t = .ok l t₁ ∧ x ∈ t₁.lineStarts orders.flatten ∧
    t₁.indent? x = some (.text (spaces 2)) ∧ u.indent? x = some (.text (spaces 4)) ∧
    ∀ z ∈ t₁.lineStarts orders.flatten, ∀ j, t₁.indent? z = some (.text (spaces j)) →
      u.indent? z = some (.text (spaces (j + 4 - 2))) := by
  obtain ⟨w,t,root,n,c,h,hbehind,hreach,hc,hkind,hone⟩ := newDocument_tested "while a: b" bodyParser .whileLoop
    (fun _ t n => t.takesBody n "  b\n    c") (by decide +kernel) rfl (by decide +kernel)
  simp only [Store.takesBody,Bool.and_eq_true] at hone
  obtain ⟨⟨hrun,hunindented⟩,hbody⟩ := hone
  obtain ⟨_,u,hassign⟩ := Edit.succeeds_iff.mp hrun
  obtain ⟨root',hbehind',haligned⟩ := assign_block_aligned h
  cases hbehind.symm.trans hbehind'
  obtain ⟨indentation,margin,d,l,t₁,ms,orders,held,lc,ends,hindent,hmargin,hparse,hbuild,-,hitems,-,-,-,-,-,hmoved⟩ :=
    haligned [.index 0] n c "  b\n    c" u hreach hc (by rw [hkind]; rfl) hassign
  obtain rfl : margin = 0 := by
    rw [hindent] at hunindented
    split at hunindented
    · next heq =>
      cases heq
      cases beq_iff_eq.mp hunindented
      exact (Except.ok.inj hmargin).symm
    · cases hunindented
  simp only [hparse,hbuild,Store.fitsBody,Bool.and_eq_true] at hbody
  obtain ⟨hfirst,hends⟩ := hbody
  rw [hitems] at hfirst
  split at hfirst
  · next x y rest heq =>
    obtain ⟨_,ms,rfl,hx,hms⟩ := List.map_eq_cons_iff.mp (Except.ok.inj heq)
    obtain ⟨_,ms,rfl,hy,-⟩ := List.map_eq_cons_iff.mp hms
    obtain rfl := Value.node.inj hx
    obtain rfl := Value.node.inj hy
    next x y =>
    simp only [Bool.and_eq_true,Bool.not_eq_true',beq_iff_eq] at hfirst
    have htwo := Store.indent_of_width hfirst.2
    have hwide : ∀ z ∈ t₁.lineStarts orders.flatten, ∃ j, 2 ≤ j ∧ t₁.indent? z = some (.text (spaces j)) := by
      intro z hz
      have hend := Store.isEnd_of_lineStarts hz
      have hwidth := List.all_eq_true.mp hends z.index (List.mem_range.mpr (Store.lt_of_isEnd hend))
      simp only [hend,Bool.not_true,Bool.false_or] at hwidth
      obtain ⟨j,hj,hle⟩ := (Option.any_eq_true _ _).mp hwidth
      exact ⟨j,of_decide_eq_true hle,Store.indent_of_width hj⟩
    obtain ⟨hstart,hx,hz⟩ := hmoved x y ms 2 rfl hfirst.1.1 hfirst.1.2 htwo hwide
    exact ⟨w,t,root,n,u,d,l,t₁,x,orders,h,hbehind,hreach,hassign,hbuild,hstart,htwo,hx,hz⟩
  · cases hfirst

end Assigning

end CodeTree
