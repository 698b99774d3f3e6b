import CodeTree.Proofs.Reading

/-! # Lines that are moved

Every line of a list of nodes begins with a line end that something else follows. Shifting the lines of a list walks
along its nodes in the order in which they are read, meets nodes again and again and changes the lines that it walks
along. It meets the same nodes all the same, since an indentation is no node, and it moves each line once only.
-/
namespace CodeTree
variable {o s t u : Store} {p : Parser} {shift : Shift} {i fuel first : Nat} {n m x y : NodeId} {place : Attr}
  {orders : List (List NodeId)} {previous : Option NodeId} {a : String} {r : Unit}

/-- The indentation that a node stores. -/
def Store.indent? (t : Store) (n : NodeId) : Option Value := (t.nodes[n.index]?).bind (·.stored? (.field .indent))

/-- The line ends in a row of nodes that something else follows. -/
def Store.lineStarts (t : Store) : List NodeId → List NodeId
  | x :: y :: rest => if t.isEnd x && !t.isEnd y then x :: t.lineStarts (y :: rest) else t.lineStarts (y :: rest)
  | _ => []

section Carrying
variable (h : o.Carries t)
include h

theorem Store.Carries.nodes_le : o.nodes.size ≤ t.nodes.size := h.mark.1

theorem Store.Carries.lists_le : o.lists.size ≤ t.lists.size := h.mark.2.1

theorem Store.Carries.mapNode (hn : o.nodes.size ≤ n.index) (f : NodeCell → NodeCell) : o.Carries (t.mapNode n f) where
  mark := by simpa [Mark.le_def] using h.mark
  node {m c} hc := by
    have hne : n.index ≠ m.index := by
      have := Store.lt_nodes_of_get hc
      omega
    rw [Store.mapNode_get,if_neg hne]
    exact h.node hc
  list := h.list
  view := h.view

theorem Store.Carries.mapList {l : ListId} (hl : o.lists.size ≤ l.index) (f : ListCell → ListCell) :
    o.Carries (t.mapList l f) where
  mark := by simpa [Mark.le_def] using h.mark
  node := h.node
  list {m c} hc := by
    have hne : l.index ≠ m.index := by
      have := Store.lt_lists_of_get hc
      omega
    rw [Store.mapList_get,if_neg hne]
    exact h.list hc
  view := h.view

theorem Store.Carries.showing (w : ViewId) (f : ViewCell → List Value) :
    o.Carries (t.mapView w (fun c => { c with items := f c })) where
  mark := by simpa [Mark.le_def] using h.mark
  node := h.node
  list := h.list
  view {v c} hc := by
    obtain ⟨shown,hd⟩ := h.view hc
    rw [Store.mapView_get,hd]
    split
    · exact ⟨_,rfl⟩
    · exact ⟨shown,rfl⟩

end Carrying

theorem Store.Carries.refl (s : Store) : s.Carries s := (Store.Grows.refl s).carries

section Trees
variable {j : Nat} {d : NodeCell}

theorem Store.TreeFrom.mono (h : t.TreeFrom first i n) (hij : i ≤ j) : t.TreeFrom first j n := by
  induction i generalizing j n with
  | zero => exact h.elim
  | succ i ih =>
    obtain _ | j := j
    · omega
    obtain ⟨hn,c,hc⟩ := h
    exact ⟨hn,c,hc.mono (fun m hm => ih hm (by omega))⟩

theorem Store.TreeFrom.le (h : t.TreeFrom first i n) : first ≤ n.index := by
  obtain ⟨j,rfl⟩ := h.tree.succ
  exact h.1

theorem Store.Descends.treeFrom {enter : NodeId → Bool} (hd : t.Descends enter n m) (h : t.TreeFrom first i n) :
    t.TreeFrom first i m := by
  induction hd with
  | self => exact h
  | @step m k down hangs ih =>
    obtain ⟨j,rfl⟩ := ih.tree.succ
    obtain ⟨-,c,hc⟩ := ih
    exact (hc.below hangs).1.mono (Nat.le_succ j)

/-- A node that is not changed but for the value of one of its text fields stands as it did. -/
theorem Store.Stands.put {P : NodeId → Prop} {c : NodeCell} {f : Field} {e : Datum} (h : t.Stands P n c)
    (hm : t.nodes[m.index]? = some d) (hf : f ∈ slotFields d.kind.layout)
    (hforms : ∀ form shown, .field form f shown ∈ d.kind.layout → form = .text) (htype : f ≠ .type) :
    ∃ c', (t.mapNode m (·.put (.field f) (.ofDatum e))).Stands P n c' := by
  have hget : ∀ {k : NodeId} {b}, t.nodes[k.index]? = some b → ∃ b', (t.mapNode m (·.put (.field f) (.ofDatum e))).nodes[k.index]? =
      some b' ∧ b'.parent = b.parent ∧ b'.place = b.place := by
    intro k b hb
    rw [Store.mapNode_get,hb]
    split
    · exact ⟨_,rfl,rfl,rfl⟩
    · exact ⟨b,rfl,rfl,rfl⟩
  have hhangs : ∀ {parent place k}, t.Hangs parent place k →
      (t.mapNode m (·.put (.field f) (.ofDatum e))).Hangs parent place k := by
    rintro parent place k ⟨b,hb,rfl,hplace⟩
    obtain ⟨b',hb',hparent',hplace'⟩ := hget hb
    exact ⟨b',hb',hparent',hplace'.trans hplace⟩
  have hbears : ∀ {n g form v}, t.Bears P n g form v → (t.mapNode m (·.put (.field f) (.ofDatum e))).Bears P n g form v :=
    fun hb => hb.carry (fun _ => hhangs) (fun hl _ => hl) (fun hl => hl) (fun _ hm => hm)
  by_cases hnm : m.index = n.index
  · obtain rfl : d = c := by
      have hc := h.cell
      rw [← hnm,hm] at hc
      exact Option.some.inj hc
    have hother : ∀ {a v}, (d.put (.field f) (.ofDatum e)).stored? a = some v →
        a = .field f ∧ v = .ofDatum e ∨ a ≠ .field f ∧ d.stored? a = some v := by
      intro a v hv
      by_cases ha : a = .field f
      · subst ha
        rw [NodeCell.stored_put_self] at hv
        exact .inl ⟨rfl,(Option.some.inj hv).symm⟩
      · rw [NodeCell.stored_put_of_ne ha] at hv
        exact .inr ⟨ha,hv⟩
    refine ⟨d.put (.field f) (.ofDatum e),by rw [Store.mapNode_get,if_pos hnm,h.cell]; rfl,?_,?_,?_,?_⟩
    · rw [NodeCell.stored_put_of_ne (by simpa using htype.symm)]
      exact h.type
    · intro a v hv
      rcases hother hv with ⟨rfl,-⟩ | ⟨-,hv⟩
      · exact .inr ⟨f,hf,rfl⟩
      · exact h.own a v hv
    · intro form g shown hslot
      by_cases hg : g = f
      · subst hg
        obtain rfl := hforms form shown hslot
        exact ⟨.ofDatum e,NodeCell.stored_put_self _ _ _,.datum e rfl⟩
      · obtain ⟨v,hv,hb⟩ := h.bears form g shown hslot
        exact ⟨v,by rw [NodeCell.stored_put_of_ne (by simpa using hg)]; exact hv,hbears hb⟩
    · rintro g g' v v' hne hv hv' hlv hlv'
      have hdatum : ¬ t.Loose (.ofDatum e) := by
        rintro ⟨l,-,hl,-⟩
        cases e <;> cases hl
      rcases hother hv with ⟨-,rfl⟩ | ⟨-,hv⟩
      · exact absurd hlv hdatum
      · rcases hother hv' with ⟨-,rfl⟩ | ⟨-,hv'⟩
        · exact absurd hlv' hdatum
        · exact h.apart g g' v v' hne hv hv' hlv hlv'
  · refine ⟨c,by rw [Store.mapNode_get,if_neg hnm]; exact h.cell,h.type,h.own,fun form g shown hslot => ?_,h.apart⟩
    obtain ⟨v,hv,hb⟩ := h.bears form g shown hslot
    exact ⟨v,hv,hbears hb⟩

theorem Store.TreeFrom.indent (h : t.TreeFrom first i n) (hm : t.nodes[m.index]? = some d) (hkind : d.kind = .endl)
    (e : Datum) : (t.mapNode m (·.put (.field .indent) (.ofDatum e))).TreeFrom first i n := by
  induction i generalizing n with
  | zero => exact h.elim
  | succ i ih =>
    obtain ⟨hn,c,hc⟩ := h
    have hforms : ∀ form shown, .field form .indent shown ∈ Kind.endl.layout → form = .text := by
      intro form shown hslot
      simp [Kind.layout] at hslot
      exact hslot.1
    exact ⟨hn,(hc.mono (fun k hk => ih hk)).put hm (by rw [hkind]; decide) (by rw [hkind]; exact hforms)
      (by decide)⟩

end Trees

section Order
variable {α β : Type} {d : NodeCell} {a : String}

theorem Flow.flatMap_congr {f g : α → Flow β} {xs : List α} (h : ∀ x ∈ xs, f x = g x) :
    Flow.flatMap f xs = Flow.flatMap g xs := by
  induction xs with
  | nil => rfl
  | cons x xs ih =>
    simp only [Flow.flatMap]
    rw [h x List.mem_cons_self,ih (List.forall_mem_cons.mp h).2]

/-- What reading meets in a slot, if the cell of the node differs in texts only. -/
theorem meetSlot_indent {c c' : NodeCell} (hc : s.Stands (s.TreeFrom first i) n c) (hc' : t.nodes[n.index]? = some c')
    (hcell : ∀ f v, c.stored? (.field f) = some v → c'.stored? (.field f) = some v ∨
      ∃ x y, v = .text x ∧ c'.stored? (.field f) = some (.text y))
    (hlists : t.lists = s.lists) (hviews : t.views = s.views)
    (hmeet : ∀ m, s.TreeFrom first i m → meetings t fuel (.node m) = meetings s fuel (.node m))
    {slot : Slot} (hslot : slot ∈ c.kind.layout) : meetSlot t fuel n slot = meetSlot s fuel n slot := by
  cases slot with
  | constant text shown => rfl
  | field form f shown =>
    obtain ⟨v,hv,hb⟩ := hc.bears form f shown hslot
    have hlook : look n (.field f) s = .ok v := look_stored hc.cell hv
    have hrow : ∀ {ms : List NodeId}, (∀ m ∈ ms, s.TreeFrom first i m) →
        Flow.flatMap (meetings t fuel) (ms.map .node) = Flow.flatMap (meetings s fuel) (ms.map .node) := by
      intro ms hms
      refine Flow.flatMap_congr (fun x hx => ?_)
      obtain ⟨m,hm,rfl⟩ := List.mem_map.mp hx
      exact hmeet m (hms m hm)
    rcases hcell f v hv with hv' | ⟨x,y,rfl,hv'⟩
    · have hlook' : look n (.field f) t = .ok v := look_stored hc' hv'
      have hheld : ∀ {l : ListId} {lc : ListCell}, s.Covers v l → s.lists[l.index]? = some lc →
          (look n (.field f) >>= members) t = .ok lc.items ∧ (look n (.field f) >>= members) s = .ok lc.items := by
        intro l lc hcovers hl
        have hcovers' : t.Covers v l := by
          unfold Store.Covers
          rw [hviews]
          exact hcovers
        rw [Read.bind_known hlook,Read.bind_known hlook']
        exact ⟨membersWith_covers hcovers' (hlists ▸ hl),membersWith_covers hcovers hl⟩
      cases hb with
      | datum e hform =>
        cases form with
        | text => simp only [meetSlot,hlook,hlook']
        | flag => rfl
        | _ => cases hform
      | empty =>
        simp only [meetSlot,hlook,hlook']
        cases fuel <;> rfl
      | child hangs below =>
        simp only [meetSlot,hlook,hlook']
        exact hmeet _ below
      | row hform covers cell siblings =>
        obtain ⟨ht,hs⟩ := hheld covers cell
        cases form with
        | children | formatting => simp only [meetSlot,ht,hs,hrow siblings.each]
        | _ => cases hform
      | loose cell plain items siblings =>
        obtain ⟨ht,hs⟩ := hheld (.inl rfl) cell
        simp only [meetSlot,ht,hs,items,hrow siblings.each]
    · have hlook' : look n (.field f) t = .ok (.text y) := look_stored hc' hv'
      have hform : form = .text ∨ form = .flag := by
        generalize hd : Value.text x = v at hb
        cases hb with
        | datum e hform => cases form <;> first | exact .inl rfl | exact .inr rfl | cases hform
        | row _ covers => rcases covers with rfl | ⟨_,_,rfl,-⟩ <;> cases hd
        | _ => cases hd
      rcases hform with rfl | rfl
      · simp only [meetSlot,hlook,hlook']
      · rfl

/-- Reading meets the same nodes when a line end is indented anew. -/
theorem meetings_indent (hm : s.nodes[m.index]? = some d) (hkind : d.kind = .endl)
    (ha : d.stored? (.field .indent) = some (.text a)) (b : String) (h : s.TreeFrom first i n) :
    meetings (s.mapNode m (·.put (.field .indent) (.text b))) fuel (.node n) = meetings s fuel (.node n) := by
  induction i generalizing n fuel with
  | zero => exact h.elim
  | succ i ih =>
    cases fuel with
    | zero => rfl
    | succ fuel =>
      have h' : (s.mapNode m (·.put (.field .indent) (.text b))).TreeFrom first (i + 1) n := h.indent hm hkind (.text b)
      obtain ⟨-,c,hc⟩ := h
      obtain ⟨-,c',hc'⟩ := h'
      have hget := hc'.cell
      rw [Store.mapNode_get,hc.cell] at hget
      -- The cell of the node is the one it was, but for its indentation if it is the line end.
      have hcell : c'.kind = c.kind ∧ ∀ f v, c.stored? (.field f) = some v → c'.stored? (.field f) = some v ∨
          ∃ x y, v = .text x ∧ c'.stored? (.field f) = some (.text y) := by
        split at hget
        · next hnm =>
          cases hm.symm.trans (hnm ▸ hc.cell)
          obtain rfl := Option.some.inj hget
          refine ⟨rfl,fun f v hv => ?_⟩
          by_cases hf : f = .indent
          · subst hf
            rw [ha] at hv
            exact .inr ⟨a,b,(Option.some.inj hv).symm,NodeCell.stored_put_self _ _ _⟩
          · rw [NodeCell.stored_put_of_ne (by simpa using hf)]
            exact .inl hv
        · obtain rfl := Option.some.inj hget
          exact ⟨rfl,fun f v hv => .inl hv⟩
      have hend : (s.mapNode m (·.put (.field .indent) (.text b))).isEnd n = s.isEnd n := by
        rw [hc.isEnd,hc'.isEnd,hcell.1]
      rw [meetings_node hc,meetings_node hc',hend,hcell.1]
      exact congrArg _ (Flow.flatMap_congr (fun slot hslot =>
        meetSlot_indent hc hc'.cell hcell.2 rfl rfl (fun m hm => ih hm) hslot))

theorem readingOrder_eq (t : Store) (n : NodeId) : readingOrder (.node n) t =
    .ok ⟨dropRepeats .none (meetings t t.depth (.node n)).items,(meetings t t.depth (.node n)).fault⟩ := by
  unfold readingOrder underlying
  rfl

end Order

section Starts
variable {A B : List NodeId}

theorem Store.lineStarts_congr (h : ∀ x, t.isEnd x = s.isEnd x) (A : List NodeId) : t.lineStarts A = s.lineStarts A := by
  induction A with
  | nil => rfl
  | cons x A ih =>
    cases A with
    | nil => rfl
    | cons y A => simp only [Store.lineStarts,h,ih]

theorem Store.mem_lineStarts_cons : x ∈ t.lineStarts (m :: n :: A) ↔
    x = m ∧ t.isEnd m = true ∧ t.isEnd n = false ∨ x ∈ t.lineStarts (n :: A) := by
  rw [Store.lineStarts]
  split
  · next h =>
    simp only [Bool.and_eq_true,Bool.not_eq_true'] at h
    simp [h]
  · next h =>
    simp only [Bool.and_eq_true,Bool.not_eq_true'] at h
    simp [h]

theorem Store.isEnd_of_lineStarts (h : x ∈ t.lineStarts A) : t.isEnd x = true := by
  induction A with
  | nil => cases h
  | cons y A ih =>
    cases A with
    | nil => cases h
    | cons z A =>
      rcases Store.mem_lineStarts_cons.mp h with ⟨rfl,hend,-⟩ | h
      · exact hend
      · exact ih h

theorem Store.lt_of_isEnd (h : t.isEnd x = true) : x.index < t.nodes.size := by
  obtain ⟨c,hc,-⟩ := (Option.any_eq_true _ _).mp h
  exact Store.lt_nodes_of_get hc

theorem Store.mem_lineStarts_append : x ∈ t.lineStarts (A ++ B) ↔
    x ∈ t.lineStarts A ∨ x ∈ t.lineStarts (A.getLast?.toList ++ B) := by
  induction A with
  | nil => simp [Store.lineStarts]
  | cons y A ih =>
    cases A with
    | nil => simp [Store.lineStarts]
    | cons z A =>
      have hlast : (y :: z :: A).getLast? = (z :: A).getLast? := List.getLast?_cons_cons
      rw [List.cons_append,List.cons_append,Store.mem_lineStarts_cons,Store.mem_lineStarts_cons,hlast,← List.cons_append,ih,
        or_assoc]

end Starts

section Moving
variable {xs ys done ms : List NodeId} {v : Value}

theorem setIndent_text (h : setIndent (.node m) (.text a) p s = .ok r t) :
    t = s.mapNode m (·.put (.field .indent) (.text a)) := by
  unfold setIndent at h
  obtain ⟨c,-,h⟩ := Edit.ask_ok.mp h
  split at h
  · obtain ⟨y,hy,h⟩ := Edit.ask_ok.mp h
    cases hy
    exact Edit.updateNode_ok.mp h
  · exact Edit.updateNode_ok.mp h

theorem Shift.apply_text {indent : Value} (h : shift.apply indent = .ok v) : ∃ x, v = .text x := by
  unfold Shift.apply at h
  split at h
  · next by_ _ =>
    cases hspaces : spacesFor by_ with
    | error fault =>
      rw [hspaces] at h
      cases h
    | ok spaces =>
      rw [hspaces] at h
      exact ⟨_,(Except.ok.inj h).symm⟩
  all_goals first | exact ⟨_,(Except.ok.inj h).symm⟩ | cases h

/-- Line ends of trees that are outside of a store get other indentations, and all else stays. -/
structure Store.Reindents (o s t : Store) : Prop where
  views : t.views = s.views
  lists : t.lists = s.lists
  carries : o.Carries s → o.Carries t
  trees : ∀ {i n}, s.TreeFrom o.nodes.size i n → t.TreeFrom o.nodes.size i n
  depth : t.depth = s.depth

theorem Store.Reindents.refl (s : Store) : o.Reindents s s := ⟨rfl,rfl,id,id,rfl⟩

theorem Store.Reindents.trans (h : o.Reindents s t) (h' : o.Reindents t u) : o.Reindents s u :=
  ⟨h'.views.trans h.views,h'.lists.trans h.lists,fun hs => h'.carries (h.carries hs),fun hn => h'.trees (h.trees hn),h'.depth.trans h.depth⟩

/-- A value is the root of a tree outside of a store, which is no higher than reading can go. -/
def Store.Sprung (o t : Store) (v : Value) : Prop := ∃ n i, v = .node n ∧ i < t.depth ∧ t.TreeFrom o.nodes.size i n

theorem Store.Sprung.hasType_endl (h : o.Sprung s (.node x)) : hasType (.node x) "endl" s = .ok (s.isEnd x) := by
  obtain ⟨_,_,hn,-,hx⟩ := h
  cases hn
  exact hx.tree.hasType_endl

theorem Store.Sprung.reindents (h : o.Sprung s v) (hst : o.Reindents s t) : o.Sprung t v := by
  obtain ⟨n,i,rfl,hi,hn⟩ := h
  exact ⟨n,i,rfl,hst.depth ▸ hi,hst.trees hn⟩

/-- Some line ends of trees outside of a store are indented anew, and all else stays. -/
structure Store.Moves (o : Store) (shift : Shift) (xs : List NodeId) (s t : Store) : Prop where
  reindents : o.Reindents s t
  order : ∀ {v}, o.Sprung s v → readingOrder v t = readingOrder v s
  kept : ∀ x, x ∉ xs → t.nodes[x.index]? = s.nodes[x.index]?
  moved : ∀ x ∈ xs, ∃ a b, s.indent? x = some (.text a) ∧ shift.apply (.text a) = .ok (.text b) ∧
    t.nodes[x.index]? = (s.nodes[x.index]?).map (·.put (.field .indent) (.text b))
  ends : ∀ x, t.isEnd x = s.isEnd x

theorem Store.Moves.refl (s : Store) : o.Moves shift [] s s := ⟨.refl s,fun _ => rfl,fun _ _ => rfl,by simp,fun _ => rfl⟩

theorem Store.Moves.trans (h : o.Moves shift xs s t) (h' : o.Moves shift ys t u) (hne : ∀ x ∈ ys, x ∉ xs) :
    o.Moves shift (ys ++ xs) s u where
  reindents := h.reindents.trans h'.reindents
  order hv := (h'.order (hv.reindents h.reindents)).trans (h.order hv)
  kept x hx := by
    rw [List.mem_append,not_or] at hx
    exact (h'.kept x hx.1).trans (h.kept x hx.2)
  moved x hx := by
    rcases List.mem_append.mp hx with hx | hx
    · obtain ⟨a,b,ha,hab,hb⟩ := h'.moved x hx
      rw [Store.indent?,h.kept x (hne x hx)] at ha
      exact ⟨a,b,ha,hab,h.kept x (hne x hx) ▸ hb⟩
    · obtain ⟨a,b,ha,hab,hb⟩ := h.moved x hx
      exact ⟨a,b,ha,hab,(h'.kept x (fun hy => hne x hy hx)).trans hb⟩
  ends x := (h'.ends x).trans (h.ends x)

theorem Shift.apply_of_text {indent : Value} (h : shift.apply indent = .ok v) : ∃ a, indent = .text a := by
  cases indent with
  | text a => exact ⟨a,rfl⟩
  | _ =>
    cases shift with
    | more k => cases h
    | less k => cases k <;> cases h

/-- One line is moved. -/
theorem shiftLine_moves (hx : o.Sprung s (.node x)) (hend : s.isEnd x = true) (h : shiftLine shift (.node x) p s = .ok r t) :
    o.Moves shift [x] s t := by
  obtain ⟨_,i,hn,hi,hx⟩ := hx
  cases hn
  obtain ⟨j,rfl⟩ := hx.tree.succ
  obtain ⟨c,hc⟩ := hx.2
  have hkind : c.kind = .endl := by
    rw [hc.isEnd] at hend
    exact beq_iff_eq.mp hend
  obtain ⟨v,hv,-⟩ := hc.bears .text .indent .always (by rw [hkind]; decide)
  unfold shiftLine at h
  obtain ⟨indent,hindent,h⟩ := Edit.ask_ok.mp h
  obtain ⟨w,_,hlift,h⟩ := Edit.bind_ok.mp h
  obtain ⟨hw,rfl⟩ := Edit.lift_ok.mp hlift
  obtain ⟨b,rfl⟩ := Shift.apply_text hw
  obtain rfl := setIndent_text h
  obtain rfl : v = indent := Except.ok.inj ((attr_stored hc.cell hv).symm.trans hindent)
  obtain ⟨a,rfl⟩ := Shift.apply_of_text hw
  have hdepth : (s.mapNode x (·.put (.field .indent) (.text b))).depth = s.depth := by
    unfold Store.depth
    simp
  refine ⟨⟨rfl,rfl,fun hs => hs.mapNode hx.le _,fun hn => hn.indent hc.cell hkind (.text b),hdepth⟩,?_,fun y hy => ?_,fun y hy => ?_,
    fun y => ?_⟩
  · rintro _ ⟨m,k,rfl,-,hm⟩
    rw [readingOrder_eq,readingOrder_eq,hdepth,meetings_indent hc.cell hkind hv b hm]
  · rw [Store.mapNode_get,if_neg]
    intro heq
    exact hy (List.mem_singleton.mpr (congrArg NodeId.mk heq.symm))
  · cases List.mem_singleton.mp hy
    refine ⟨a,b,?_,hw,?_⟩
    · rw [Store.indent?,hc.cell]
      exact hv
    · rw [Store.mapNode_get,if_pos rfl]
  · unfold Store.isEnd
    rw [Store.mapNode_get]
    split
    · cases s.nodes[y.index]? <;> rfl
    · rfl

theorem any_is_node : (done.map Value.node).any (·.is (.node x)) = decide (x ∈ done) := by
  rw [Bool.eq_iff_iff,decide_eq_true_iff,List.any_eq_true]
  constructor
  · rintro ⟨_,hv,his⟩
    obtain ⟨y,hy,rfl⟩ := List.mem_map.mp hv
    rw [← beq_iff_eq.mp his]
    exact hy
  · exact fun hx => ⟨.node x,List.mem_map_of_mem hx,beq_self_eq_true x⟩

/-- Going along nodes moves the line ends among them that something else follows, each of them once. -/
theorem shiftAlong_moves {r : Value × List Value} (hprevious : ∀ x ∈ previous, o.Sprung s (.node x))
    (hms : ∀ m ∈ ms, o.Sprung s (.node m))
    (h : shiftAlong shift (previous.elim .none .node) (done.map .node) (ms.map .node) p s = .ok r t) :
    ∃ xs, o.Moves shift xs s t ∧ (∀ x ∈ xs, x ∉ done) ∧
      r = ((ms.getLast?.or previous).elim .none .node,(xs ++ done).map .node) ∧
      ∀ x, x ∈ xs ++ done ↔ x ∈ s.lineStarts (previous.toList ++ ms) ∨ x ∈ done := by
  induction ms generalizing previous done s with
  | nil =>
    obtain ⟨rfl,rfl⟩ := Edit.pure_ok.mp h
    refine ⟨[],.refl s,by simp,rfl,fun x => ?_⟩
    cases previous <;> simp [Store.lineStarts]
  | cons v ms ih =>
    have hv := hms v List.mem_cons_self
    have hms := fun x hx => hms x (List.mem_cons_of_mem v hx)
    have hlast : (v :: ms).getLast? = ms.getLast?.or (some v) := by
      cases ms with
      | nil => rfl
      | cons w ms => rw [List.getLast?_cons_cons,List.getLast?_eq_some_getLast (List.cons_ne_nil w ms),Option.some_or]
    -- The rest is gone along behind the node, whether or not a line is moved here.
    have hrest : ∀ {done'}, shiftAlong shift (.node v) (done'.map .node) (ms.map .node) p s = .ok r t →
        ∃ xs, o.Moves shift xs s t ∧ (∀ x ∈ xs, x ∉ done') ∧
          r = (((v :: ms).getLast?.or previous).elim .none .node,(xs ++ done').map .node) ∧
          ∀ x, x ∈ xs ++ done' ↔ x ∈ s.lineStarts (v :: ms) ∨ x ∈ done' := by
      intro done' h
      have hsome : ∀ x ∈ some v, o.Sprung s (.node x) := by simpa using hv
      obtain ⟨xs,hmoves,hne,hr,hmem⟩ := ih hsome hms h
      refine ⟨xs,hmoves,hne,?_,hmem⟩
      rw [hr,hlast,Option.or_assoc,Option.some_or]
    simp only [List.map_cons] at h
    unfold shiftAlong at h
    obtain ⟨isEnd,hisEnd,h⟩ := Edit.ask_ok.mp h
    obtain rfl := Except.ok.inj (hv.hasType_endl.symm.trans hisEnd)
    dsimp only at h
    cases previous with
    | none =>
      rw [if_neg (by simp [Value.isNone])] at h
      exact hrest h
    | some q =>
      have hq := hprevious q rfl
      have hstarts : ∀ x, x ∈ s.lineStarts ((some q).toList ++ v :: ms) ↔
          x = q ∧ s.isEnd q = true ∧ s.isEnd v = false ∨ x ∈ s.lineStarts (v :: ms) := fun x => Store.mem_lineStarts_cons
      split at h
      · next hother =>
        obtain ⟨ends,hends,h⟩ := Edit.ask_ok.mp h
        obtain rfl := Except.ok.inj (hq.hasType_endl.symm.trans hends)
        have hnot : s.isEnd v = false := by simpa [Value.isNone] using hother
        split at h
        · next hshift =>
          simp only [Bool.and_eq_true,Bool.not_eq_true',Option.elim_some,any_is_node,decide_eq_false_iff_not] at hshift
          obtain ⟨_,s₁,hline,h⟩ := Edit.bind_ok.mp h
          have hstep := shiftLine_moves hq hshift.1 hline
          have hsome : ∀ x ∈ some v, o.Sprung s₁ (.node x) := by simpa using hv.reindents hstep.reindents
          have h : shiftAlong shift (.node v) ((q :: done).map .node) (ms.map .node) p s₁ = .ok r t := h
          obtain ⟨xs,hmoves,hne,hr,hmem⟩ := ih hsome (fun x hx => (hms x hx).reindents hstep.reindents) h
          have hnew : ∀ x ∈ xs, x ≠ q ∧ x ∉ done := fun x hx => by simpa using hne x hx
          refine ⟨xs ++ [q],hstep.trans hmoves (fun x hx => by simpa using (hnew x hx).1),fun x hx => ?_,?_,fun x => ?_⟩
          · rcases List.mem_append.mp hx with hx | hx
            · exact (hnew x hx).2
            · rw [List.mem_singleton.mp hx]
              exact hshift.2
          · rw [hr,hlast,Option.or_assoc,Option.some_or,List.append_assoc]
            rfl
          · rw [List.append_assoc,hstarts]
            refine (hmem x).trans ?_
            rw [Store.lineStarts_congr hstep.ends]
            simp only [Option.toList_some,List.singleton_append,List.mem_cons,hshift.1,hnot]
            tauto
        · next hshift =>
          obtain ⟨xs,hmoves,hne,hr,hmem⟩ := hrest h
          refine ⟨xs,hmoves,hne,hr,fun x => ?_⟩
          simp only [Bool.and_eq_true,Bool.not_eq_true',Option.elim_some,any_is_node,decide_eq_false_iff_not,not_and,
            not_not] at hshift
          rw [hmem,hstarts]
          refine ⟨fun hx => hx.imp_left .inr,?_⟩
          rintro ((⟨rfl,hend,-⟩ | hx) | hx)
          · exact .inr (hshift hend)
          · exact .inl hx
          · exact .inr hx
      · next hother =>
        obtain ⟨xs,hmoves,hne,hr,hmem⟩ := hrest h
        refine ⟨xs,hmoves,hne,hr,fun x => ?_⟩
        have hend : s.isEnd v = true := by simpa [Value.isNone] using hother
        rw [hmem,hstarts,hend]
        simp

theorem dropRepeats_nodes (ms : List NodeId) (previous : Value) :
    ∃ order : List NodeId, dropRepeats previous (ms.map .node) = order.map .node ∧ order ⊆ ms := by
  induction ms generalizing previous with
  | nil => exact ⟨[],rfl,List.Subset.refl _⟩
  | cons m ms ih =>
    simp only [List.map_cons,dropRepeats]
    split
    · obtain ⟨order,horder,hsub⟩ := ih previous
      exact ⟨order,horder,List.subset_cons_of_subset _ hsub⟩
    · obtain ⟨order,horder,hsub⟩ := ih (.node m)
      exact ⟨m :: order,by rw [horder]; rfl,List.cons_subset_cons m hsub⟩

theorem Store.Sprung.order (h : o.Sprung s (.node n)) : ∃ order : List NodeId,
    readingOrder (.node n) s = .ok ⟨order.map .node,none⟩ ∧ ∀ m ∈ order, o.Sprung s (.node m) := by
  obtain ⟨_,i,hn,hi,h⟩ := h
  cases hn
  obtain ⟨ms,horder,hreads⟩ := h.tree.readingOrder hi
  obtain ⟨order,hdrop,hsub⟩ := dropRepeats_nodes ms .none
  exact ⟨order,hdrop ▸ horder,fun m hm => ⟨m,i,rfl,hi,(h.tree.mem_preorder.mp (hreads.within m (hsub hm))).treeFrom h⟩⟩

/-- The orders in which some nodes and what is below them are read. -/
abbrev Store.Orders (t : Store) (ms : List NodeId) (orders : List (List NodeId)) : Prop :=
  List.Forall₂ (fun m order => readingOrder (.node m) t = .ok ⟨order.map .node,none⟩) ms orders

/-- Shifting the lines of a list moves the line ends that something else follows in the order of its items. -/
theorem shiftItems_moves {inside : List NodeId} (hprevious : ∀ x ∈ previous, o.Sprung s (.node x))
    (hinside : ∀ m ∈ inside, o.Sprung s (.node m))
    (h : shiftItems shift (previous.elim .none .node) (done.map .node) (inside.map .node) p s = .ok r t) :
    ∃ orders, s.Orders inside orders ∧ ∃ xs, o.Moves shift xs s t ∧ (∀ x ∈ xs, x ∉ done) ∧
        ∀ x, x ∈ xs ++ done ↔ x ∈ s.lineStarts (previous.toList ++ orders.flatten) ∨ x ∈ done := by
  induction inside generalizing previous done s with
  | nil =>
    obtain ⟨-,rfl⟩ := Edit.pure_ok.mp h
    refine ⟨[],.nil,[],.refl s,by simp,fun x => ?_⟩
    cases previous <;> simp [Store.lineStarts]
  | cons v inside ih =>
    have hv := hinside v List.mem_cons_self
    have hinside := fun x hx => hinside x (List.mem_cons_of_mem v hx)
    simp only [List.map_cons] at h
    unfold shiftItems at h
    obtain ⟨flow,hflow,h⟩ := Edit.ask_ok.mp h
    obtain ⟨order,horder,hsprung⟩ := hv.order
    cases hflow.symm.trans horder
    obtain ⟨⟨last,changed⟩,s₁,halong,h⟩ := Edit.bind_ok.mp h
    obtain ⟨xs,hmoves,hne,hr,hmem⟩ := shiftAlong_moves hprevious hsprung halong
    cases hr
    have hlast : ∀ x ∈ order.getLast?.or previous, o.Sprung s₁ (.node x) := by
      intro x hx
      refine Store.Sprung.reindents ?_ hmoves.reindents
      rcases Option.or_eq_some_iff.mp hx with hx | ⟨-,hx⟩
      · exact hsprung x (List.mem_of_getLast? hx)
      · exact hprevious x hx
    obtain ⟨orders,horders,ys,hmoves',hne',hmem'⟩ := ih hlast (fun x hx => (hinside x hx).reindents hmoves.reindents) h
    refine ⟨order :: orders,.cons horder ?_,ys ++ xs,hmoves.trans hmoves' (fun x hx hxs => ?_),fun x hx => ?_,fun x => ?_⟩
    · -- The items behind are read as they were before.
      refine ((List.forall₂_and_left inside orders).mpr ⟨hinside,horders⟩).imp ?_
      rintro m order ⟨hm,horder⟩
      exact (hmoves.order hm).symm.trans horder
    · exact hne' x hx (List.mem_append_left _ hxs)
    · rcases List.mem_append.mp hx with hx | hx
      · exact fun hd => hne' x hx (List.mem_append_right _ hd)
      · exact hne x hx
    · have hgetLast : (previous.toList ++ order).getLast? = order.getLast?.or previous := by
        rw [List.getLast?_append]
        cases previous <;> rfl
      have hparts : x ∈ s.lineStarts (previous.toList ++ (order :: orders).flatten) ↔
          x ∈ s.lineStarts (previous.toList ++ order) ∨ x ∈ s.lineStarts ((order.getLast?.or previous).toList ++ orders.flatten) := by
        rw [List.flatten_cons,← List.append_assoc,Store.mem_lineStarts_append,hgetLast]
      rw [List.append_assoc,hmem',Store.lineStarts_congr hmoves.ends,hmem,hparts]
      tauto

theorem setIndent_ends (v indent : Value) : (setIndent v indent).Ends p s (fun _ _ => True) (fun t => t = s) := by
  have hput : ∀ n x, (putAttr n (.field .indent) x).Ends p s (fun _ _ => True) (fun t => t = s) :=
    fun _ _ => .of_run (fun _ _ _ => trivial) (fun _ _ h => by cases h)
  unfold setIndent
  cases v with
  | node n =>
    refine .ask (fun c _ => ?_) rfl
    split
    · exact .ask (fun x _ => hput n x) rfl
    · exact hput n indent
  | list l =>
    refine .ask (fun c _ => .ite (fun _ => ?_) (fun _ => .throw rfl)) rfl
    exact .of_run (fun _ _ _ => trivial) (fun _ _ h => by cases h)
  | view w => exact .of_run (fun _ _ _ => trivial) (fun _ _ h => by cases h)
  | _ => exact .throw rfl

/-- Going along nodes changes no more than their indentation, also where it fails. -/
theorem shiftAlong_reindents {met : List Value} (hprevious : ∀ x ∈ previous, o.Sprung s (.node x))
    (hms : ∀ m ∈ ms, o.Sprung s (.node m)) : (shiftAlong shift (previous.elim .none .node) met (ms.map .node)).Ends p s
      (fun r t => o.Reindents s t ∧ ∃ last : Option NodeId, r.1 = last.elim .none .node ∧ ∀ x ∈ last, o.Sprung t (.node x))
      (fun t => o.Reindents s t) := by
  induction ms generalizing previous met s with
  | nil => exact .pure ⟨.refl s,previous,rfl,hprevious⟩
  | cons v ms ih =>
    have hv := hms v List.mem_cons_self
    have hrest : ∀ {met s'}, o.Reindents s s' → (shiftAlong shift (.node v) met (ms.map .node)).Ends p s'
        (fun r t => o.Reindents s t ∧ ∃ last : Option NodeId, r.1 = last.elim .none .node ∧ ∀ x ∈ last, o.Sprung t (.node x))
        (fun t => o.Reindents s t) := by
      intro met s' hs'
      have hsome : ∀ x ∈ some v, o.Sprung s' (.node x) := by simpa using hv.reindents hs'
      exact (ih hsome (fun x hx => (hms x (List.mem_cons_of_mem v hx)).reindents hs')).imp
        (fun _ _ h => ⟨hs'.trans h.1,h.2⟩) (fun _ h => hs'.trans h)
    simp only [List.map_cons]
    unfold shiftAlong
    refine .ask (fun isEnd _ => ?_) (.refl s)
    dsimp only
    cases previous with
    | none =>
      rw [if_neg (by simp [Value.isNone])]
      exact hrest (.refl s)
    | some q =>
      have hq := hprevious q rfl
      split
      · refine .ask (fun ends hends => ?_) (.refl s)
        obtain rfl := Except.ok.inj (hq.hasType_endl.symm.trans hends)
        split
        · next hshift =>
          simp only [Bool.and_eq_true] at hshift
          refine .bind (.of_run (fun _ t h => hrest (shiftLine_moves hq hshift.1 h).reindents) (fun fault t h => ?_))
          have hfails : (shiftLine shift (.node q)).Ends p s (fun _ _ => True) (fun t => t = s) :=
            .ask (fun _ _ => .bind (.lift (fun _ _ => setIndent_ends _ _) rfl)) rfl
          rw [hfails.error h]
          exact .refl s
        · exact hrest (.refl s)
      · exact hrest (.refl s)

/-- The lines of new nodes are changed in no more than their indentation, also where this fails. -/
theorem shiftItems_reindents {met : List Value} {inside : List NodeId} (hprevious : ∀ x ∈ previous, o.Sprung s (.node x))
    (hinside : ∀ m ∈ inside, o.Sprung s (.node m)) :
    (shiftItems shift (previous.elim .none .node) met (inside.map .node)).Ends p s
      (fun _ t => o.Reindents s t) (fun t => o.Reindents s t) := by
  induction inside generalizing previous met s with
  | nil => exact .pure (.refl s)
  | cons m inside ih =>
    obtain ⟨order,horder,hms⟩ := (hinside m List.mem_cons_self).order
    simp only [List.map_cons]
    unfold shiftItems
    refine .ask (fun found hfound => ?_) (.refl s)
    obtain rfl := Except.ok.inj (horder.symm.trans hfound)
    refine .bind ((shiftAlong_reindents hprevious hms).imp (fun r t h => ?_) (fun _ h => h))
    obtain ⟨hst,last,hlast,hsprung⟩ := h
    dsimp only
    rw [hlast]
    exact (ih hsprung (fun x hx => (hinside x (List.mem_cons_of_mem m hx)).reindents hst)).imp
      (fun _ _ h => hst.trans h) (fun _ h => hst.trans h)

end Moving

section LastLine
variable {A B order ms : List NodeId}

/-- A node that hangs at one of the nodes numbered from some number on. -/
def Store.Deep (t : Store) (first : Nat) (x : NodeId) : Prop := ∃ k place, first ≤ k.index ∧ t.Hangs (.node k) place x

theorem Store.TreeFrom.deep (h : t.TreeFrom first i n) (hd : t.Descends everywhere n x) : x = n ∨ t.Deep first x := by
  cases hd with
  | self => exact .inl rfl
  | @step m k down hangs =>
    have hm := down.treeFrom h
    obtain ⟨j,rfl⟩ := hm.tree.succ
    obtain ⟨c,hc⟩ := hm.2
    obtain ⟨-,f,hf⟩ := hc.below hangs
    exact .inr ⟨m,_,hm.le,hf⟩

theorem Store.TreeFrom.order_deep (h : t.TreeFrom first i n) (hdepth : i < t.depth)
    (horder : readingOrder (.node n) t = .ok ⟨order.map .node,none⟩) : ∀ x ∈ order, x = n ∨ t.Deep first x := by
  intro x hx
  obtain ⟨ms,hms,hreads⟩ := h.tree.readingOrder hdepth
  obtain ⟨order',hdrop,hsub⟩ := dropRepeats_nodes ms .none
  have horder' : order = order' := by
    have heq : order.map Value.node = order'.map Value.node := by
      rw [← hdrop]
      exact congrArg Flow.items (Except.ok.inj (horder.symm.trans hms))
    exact List.map_injective_iff.mpr (fun _ _ h => Value.node.inj h) heq
  exact h.deep (h.tree.mem_preorder.mp (hreads.within x (hsub (horder' ▸ hx))))

theorem dropRepeats_append (A B : List NodeId) (previous : Value) : ∃ A' B' : List NodeId,
    dropRepeats previous ((A ++ B).map .node) = (A' ++ B').map .node ∧ A' ⊆ A ∧ B' ⊆ B := by
  induction A generalizing previous with
  | nil =>
    obtain ⟨B',hB,hsub⟩ := dropRepeats_nodes B previous
    exact ⟨[],B',hB,List.Subset.refl _,hsub⟩
  | cons a A ih =>
    simp only [List.cons_append,List.map_cons,dropRepeats]
    split
    · obtain ⟨A',B',heq,hA,hB⟩ := ih previous
      exact ⟨A',B',heq,List.subset_cons_of_subset _ hA,hB⟩
    · obtain ⟨A',B',heq,hA,hB⟩ := ih (.node a)
      exact ⟨a :: A',B',by rw [heq]; rfl,List.cons_subset_cons a hA,hB⟩

/-- A line end is met after all that lies below it, for its own text and for its indentation. -/
theorem Store.TreeFrom.meetings_end (h : t.TreeFrom first i n) (hdepth : i < t.depth) (hend : t.isEnd n = true) :
    ∃ A B : List NodeId, meetings t t.depth (.node n) = .ofList ((A ++ B).map .node) ∧ (∀ x ∈ A, t.Deep first x) ∧
      (∀ x ∈ B, x = n) ∧ ∀ a, t.indent? n = some (.text a) → B.getLast? = some n := by
  obtain ⟨j,rfl⟩ := h.tree.succ
  obtain ⟨hle,c,hc⟩ := h
  have hkind : c.kind = .endl := by
    rw [hc.isEnd] at hend
    exact beq_iff_eq.mp hend
  obtain ⟨fuel,hfuel⟩ := t.depth_pos
  have hslot : .field .formatting .formatting .always ∈ c.kind.layout := by
    rw [hkind]
    decide
  have hbelow : ∀ {place} {ms : List NodeId}, t.Siblings (t.TreeFrom first j) (.node n) place ms →
      ∃ A : List NodeId, Flow.flatMap (meetings t fuel) (ms.map .node) = .ofList (A.map .node) ∧ ∀ x ∈ A, t.Deep first x := by
    intro place ms hms
    have hmeet : ∀ m ∈ ms, ∃ A : List NodeId, meetings t fuel (.node m) = .ofList (A.map .node) ∧ ∀ x ∈ A, t.Deep first x := by
      intro m hm
      obtain ⟨A,hA,hreads⟩ := (hms.each m hm).tree.meetings (show j < fuel by omega)
      refine ⟨A,hA,fun x hx => ?_⟩
      rcases (hms.each m hm).deep ((hms.each m hm).tree.mem_preorder.mp (hreads.within x hx)) with rfl | hdeep
      · exact ⟨n,place,hle,hms.hang x hm⟩
      · exact hdeep
    clear hms
    induction ms with
    | nil => exact ⟨[],rfl,by simp⟩
    | cons m ms ih =>
      obtain ⟨A,hA,hdeep⟩ := hmeet m List.mem_cons_self
      obtain ⟨A',hA',hdeep'⟩ := ih (fun x hx => hmeet x (List.mem_cons_of_mem m hx))
      refine ⟨A ++ A',?_,fun x hx => (List.mem_append.mp hx).elim (hdeep x) (hdeep' x)⟩
      simp only [List.map_cons,Flow.flatMap,hA,hA',Flow.ofList,Flow.append,List.map_append]
  -- What is below a line end is its formatting, which is read first.
  obtain ⟨A,hA,hdeep⟩ : ∃ A : List NodeId,
      meetSlot t fuel n (.field .formatting .formatting .always) = .ofList (A.map .node) ∧ ∀ x ∈ A, t.Deep first x := by
    obtain ⟨v,place,ms,hlook,hmembers,-,hms⟩ := hc.listed hslot rfl
    have hheld : (look n (.field .formatting) >>= members) t = .ok (ms.map .node) := (Read.bind_known hlook).trans hmembers
    simp only [meetSlot,hheld]
    exact hbelow hms
  have hown : ∀ f, .field .text f .always ∈ c.kind.layout → ∃ B : List NodeId,
      meetSlot t fuel n (.field .text f .always) = .ofList (B.map .node) ∧ (∀ x ∈ B, x = n) ∧
      ∀ a, c.stored? (.field f) = some (.text a) → B = [n] := by
    intro f hf
    obtain ⟨v,hv,-⟩ := hc.bears _ _ _ hf
    have hlook : look n (.field f) t = .ok v := look_stored hc.cell hv
    simp only [meetSlot,hlook,hv]
    cases v with
    | text x => exact ⟨[n],rfl,by simp,fun _ _ => rfl⟩
    | _ => exact ⟨[],rfl,by simp,fun _ h => by cases h⟩
  obtain ⟨B,hB,hBn,-⟩ := hown .value (by rw [hkind]; decide)
  obtain ⟨B',hB',hBn',hindent⟩ := hown .indent (by rw [hkind]; decide)
  refine ⟨A,B ++ B',?_,hdeep,fun x hx => (List.mem_append.mp hx).elim (hBn x) (hBn' x),fun a ha => ?_⟩
  · rw [hfuel,meetings_node hc,hend,hkind]
    simp [Kind.layout,Flow.flatMap,hA,hB,hB',Flow.ofList,Flow.append]
  · rw [Store.indent?,hc.cell] at ha
    rw [hindent a ha]
    exact List.getLast?_concat

theorem Store.order_of_meetings (hms : meetings t t.depth (.node n) = .ofList (ms.map .node))
    (horder : readingOrder (.node n) t = .ok ⟨order.map .node,none⟩) : dropRepeats .none (ms.map .node) = order.map .node := by
  rw [readingOrder_eq,hms] at horder
  exact congrArg Flow.items (Except.ok.inj horder)

theorem Store.TreeFrom.order_end (h : t.TreeFrom first i n) (hdepth : i < t.depth) (hend : t.isEnd n = true)
    (horder : readingOrder (.node n) t = .ok ⟨order.map .node,none⟩) :
    ∃ A B, order = A ++ B ∧ (∀ x ∈ A, t.Deep first x) ∧ ∀ x ∈ B, x = n := by
  obtain ⟨A,B,hmeet,hdeep,hown,-⟩ := h.meetings_end hdepth hend
  obtain ⟨A',B',hdrop,hA,hB⟩ := dropRepeats_append A B .none
  have hsame : order = A' ++ B' := by
    rw [Store.order_of_meetings hmeet horder] at hdrop
    exact List.map_injective_iff.mpr (fun _ _ h => Value.node.inj h) hdrop
  exact ⟨A',B',hsame,fun x hx => hdeep x (hA hx),fun x hx => hown x (hB hx)⟩

theorem dropRepeats_last (xs : List NodeId) (previous : NodeId) :
    (.node previous :: dropRepeats (.node previous) (xs.map .node)).getLast? = ((previous :: xs).map Value.node).getLast? := by
  induction xs generalizing previous with
  | nil => rfl
  | cons x xs ih =>
    simp only [List.map_cons,dropRepeats]
    split
    · next his =>
      rw [ih,← beq_iff_eq.mp his,List.getLast?_cons_cons]
      rfl
    · rw [List.getLast?_cons_cons,ih,List.getLast?_cons_cons]
      rfl

theorem Store.TreeFrom.order_last (h : t.TreeFrom first i n) (hdepth : i < t.depth) (hend : t.isEnd n = true)
    (hindent : t.indent? n = some (.text a)) (horder : readingOrder (.node n) t = .ok ⟨order.map .node,none⟩) :
    order.getLast? = some n := by
  obtain ⟨A,B,hmeet,-,-,hlast⟩ := h.meetings_end hdepth hend
  have hdrop := Store.order_of_meetings hmeet horder
  have hend : (A ++ B).getLast? = some n := by
    rw [List.getLast?_append,hlast a hindent]
    rfl
  cases hAB : A ++ B with
  | nil =>
    rw [hAB] at hend
    cases hend
  | cons x xs =>
    rw [hAB,List.map_cons,dropRepeats,if_neg (by simp [Value.is])] at hdrop
    have := dropRepeats_last xs x
    rw [hdrop,← hAB,List.getLast?_map,List.getLast?_map,hend] at this
    obtain ⟨_,hm,hnode⟩ := Option.map_eq_some_iff.mp this
    cases hnode
    exact hm

theorem Store.TreeFrom.order_first (h : t.TreeFrom first i n) (hend : t.isEnd n = false)
    (horder : readingOrder (.node n) t = .ok ⟨order.map .node,none⟩) : order.head? = some n := by
  obtain ⟨j,rfl⟩ := h.tree.succ
  obtain ⟨-,c,hc⟩ := h
  obtain ⟨fuel,hfuel⟩ := t.depth_pos
  rw [readingOrder_eq,hfuel,meetings_node hc,hend] at horder
  have hitems := congrArg Flow.items (Except.ok.inj horder)
  cases order with
  | nil => cases hitems
  | cons x order =>
    have hx := Value.node.inj (List.cons.inj hitems).1
    rw [List.head?_cons,hx]

theorem Store.lineStarts_subset (A : List NodeId) : t.lineStarts A ⊆ A := by
  induction A with
  | nil => exact List.Subset.refl _
  | cons y A ih =>
    cases A with
    | nil => exact List.nil_subset _
    | cons z A =>
      intro x hx
      rcases Store.mem_lineStarts_cons.mp hx with ⟨rfl,-⟩ | hx
      · exact List.mem_cons_self
      · exact List.mem_cons_of_mem _ (ih hx)

/-- A line end that comes last in a row begins no line of it. -/
theorem Store.not_mem_lineStarts (hA : m ∉ A) (hB : ∀ x ∈ B, x = m) (hend : t.isEnd m = true) :
    m ∉ t.lineStarts (A ++ B) := by
  have hlast : m ∉ t.lineStarts B := by
    induction B with
    | nil => simp [Store.lineStarts]
    | cons y B ih =>
      cases B with
      | nil => simp [Store.lineStarts]
      | cons z B =>
        rw [Store.mem_lineStarts_cons,hB z (by simp),hend]
        have := ih (fun x hx => hB x (List.mem_cons_of_mem y hx))
        rw [hB z (by simp)] at this
        simpa using this
  intro hm
  rcases Store.mem_lineStarts_append.mp hm with hm | hm
  · exact hA (Store.lineStarts_subset A hm)
  · cases hq : A.getLast? with
    | none =>
      rw [hq] at hm
      exact hlast hm
    | some q =>
      have hne : m ≠ q := by
        rintro rfl
        exact hA (List.mem_of_getLast? hq)
      rw [hq] at hm
      cases B with
      | nil => simp [Store.lineStarts] at hm
      | cons b B =>
        rcases Store.mem_lineStarts_cons.mp hm with ⟨rfl,-⟩ | hm
        · exact hne rfl
        · exact hlast hm

/-- A line end that is the last item of a row begins no line of it. -/
theorem Store.Siblings.last_not_start (hms : t.Siblings (t.TreeFrom first i) (.node n) place ms) (hn : n.index < first)
    (hdepth : i < t.depth)
    (horders : t.Orders ms orders)
    (hlast : ms.getLast? = some m) (hend : t.isEnd m = true) : m ∉ t.lineStarts orders.flatten := by
  obtain ⟨hnodup,hhang,htrees⟩ := hms
  have hnot : ¬ t.Deep first m := by
    rintro ⟨k,_,hk,c,hc,hparent,-⟩
    obtain ⟨d,hd,hparent',-⟩ := hhang m (List.mem_of_getLast? hlast)
    obtain rfl := Option.some.inj (hc.symm.trans hd)
    obtain rfl := Value.node.inj (hparent.symm.trans hparent')
    omega
  obtain ⟨A,B,hflat,hA,hB⟩ : ∃ A B, orders.flatten = A ++ B ∧ m ∉ A ∧ ∀ x ∈ B, x = m := by
    clear hhang
    induction horders with
    | nil => cases hlast
    | @cons a order ms orders horder hrest ih =>
      cases ms with
      | nil =>
        obtain rfl : a = m := Option.some.inj hlast
        cases hrest
        obtain ⟨A,B,rfl,hA,hB⟩ := (htrees a List.mem_cons_self).order_end hdepth hend horder
        exact ⟨A,B,by simp,fun hm => hnot (hA _ hm),hB⟩
      | cons b ms =>
        rw [List.getLast?_cons_cons] at hlast
        have hne : m ≠ a := by
          rintro rfl
          exact (List.nodup_cons.mp hnodup).1 (List.mem_of_getLast? hlast)
        obtain ⟨A,B,hflat,hA,hB⟩ := ih hlast (List.nodup_cons.mp hnodup).2 (fun x hx => htrees x (List.mem_cons_of_mem a hx))
        refine ⟨order ++ A,B,by rw [List.flatten_cons,hflat,List.append_assoc],?_,hB⟩
        rw [List.mem_append,not_or]
        refine ⟨fun hm => ?_,hA⟩
        exact ((htrees a List.mem_cons_self).order_deep hdepth horder m hm).elim hne hnot
  rw [hflat]
  exact Store.not_mem_lineStarts hA hB hend

theorem Store.Siblings.first_start {parent : Value} (hms : t.Siblings (t.TreeFrom first i) parent place (x :: y :: ms))
    (hdepth : i < t.depth)
    (horders : t.Orders (x :: y :: ms) orders)
    (hx : t.isEnd x = true) (hindent : t.indent? x = some (.text a)) (hy : t.isEnd y = false) :
    x ∈ t.lineStarts orders.flatten := by
  obtain _ | ⟨horder,_ | ⟨horder',-⟩⟩ := horders
  next order order' orders =>
  have hlast := (hms.each x (by simp)).order_last hdepth hx hindent horder
  have hfirst := (hms.each y (by simp)).order_first hy horder'
  obtain ⟨rest,rfl⟩ : ∃ rest, order' = y :: rest := List.head?_eq_some_iff.mp hfirst
  rw [List.flatten_cons,Store.mem_lineStarts_append,hlast]
  exact .inr (Store.mem_lineStarts_cons.mpr (.inl ⟨rfl,hx,hy⟩))

end LastLine

section Widths
variable {j k : Nat}

/-- A number of spaces. -/
def spaces (k : Nat) : String := String.ofList (List.replicate k ' ')

@[simp] theorem length_spaces : (spaces k).length = k := by
  simp [spaces]

theorem Shift.more_spaces : (Shift.more (.int k)).apply (.text (spaces j)) = .ok (.text (spaces (j + k))) := by
  have hsum : spaces j ++ spaces k = spaces (j + k) := by
    simp only [spaces,← String.ofList_append,List.replicate_append_replicate]
  rw [← hsum]
  rfl

theorem Shift.less_spaces : (Shift.less (.int k)).apply (.text (spaces j)) = .ok (.text (spaces (j - k))) := by
  have hdrop : dropFrom (spaces j) k = spaces (j - k) := by
    have hk : ¬ (k : Int) < 0 := by omega
    simp [dropFrom,spaces,List.drop_replicate,hk]
  rw [← hdrop]
  rfl

end Widths

end CodeTree
