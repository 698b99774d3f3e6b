import CodeTree.Proofs.BlockShifts
import CodeTree.Proofs.ReadingNeighbours

/-! # Shifting lines to the right and back

Shifting the lines of a list goes along what is read in it and changes each line end that something else follows, once. What it
meets does not depend on the indentations, so a second pass goes the same way and meets the same line ends. Main statement: where
all indentations are spaces, shifting to the right succeeds, adds the spaces to just these line ends, and shifting to the left by
as many gives back the store there was before.
-/
namespace CodeTree
variable {o s t u : Store} {p : Parser} {shift : Shift} {x m n : NodeId} {done ms xs : List NodeId} {previous : Option NodeId}
  {orders : List (List NodeId)} {i j k : Nat}

section Succeeding

/-- The indentation of a line end can be shifted. -/
def Store.Shifts (s : Store) (shift : Shift) (x : NodeId) : Prop :=
  ∃ a b, s.indent? x = some (.text a) ∧ shift.apply (.text a) = .ok (.text b)

theorem Store.Moves.shifts {shift' : Shift} (h : o.Moves shift' xs s t) (hx : x ∉ xs) (hs : s.Shifts shift x) : t.Shifts shift x := by
  obtain ⟨a,b,ha,hb⟩ := hs
  rw [Store.indent?,← h.kept x hx] at ha
  exact ⟨a,b,ha,hb⟩

theorem Store.Moves.reads (h : o.Moves shift xs s t) (hms : ∀ m ∈ ms, o.Sprung s (.node m))
    (horders : s.Orders ms orders) :
    t.Orders ms orders :=
  ((List.forall₂_and_left ms orders).mpr ⟨hms,horders⟩).imp (fun _ _ hm => (h.order hm.1).trans hm.2)

theorem shiftLine_runs (h : s.Shifts shift x) : ∃ t, shiftLine shift (.node x) p s = .ok () t := by
  obtain ⟨a,b,ha,hb⟩ := h
  obtain ⟨c,hc,hv⟩ := Option.bind_eq_some_iff.mp ha
  exact ⟨_,Edit.ask_ok.mpr ⟨_,attr_stored hc hv,Edit.bind_ok.mpr ⟨_,s,Edit.lift_ok.mpr ⟨hb,rfl⟩,setIndent_known hc b p⟩⟩⟩

theorem shiftAlong_runs (hprevious : ∀ x ∈ previous, o.Sprung s (.node x)) (hms : ∀ m ∈ ms, o.Sprung s (.node m))
    (hable : ∀ x ∈ previous.toList ++ ms, s.isEnd x = true → x ∉ done → s.Shifts shift x) :
    ∃ r t, shiftAlong shift (previous.elim .none .node) (done.map .node) (ms.map .node) p s = .ok r t := by
  induction ms generalizing previous done s with
  | nil => exact ⟨_,s,rfl⟩
  | cons v ms ih =>
    have hv := hms v List.mem_cons_self
    have hms := fun x hx => hms x (List.mem_cons_of_mem v hx)
    have hsome : ∀ {s}, o.Sprung s (.node v) → ∀ x ∈ some v, o.Sprung s (.node x) := fun h => by simpa using h
    have hrest : ∃ r t, shiftAlong shift (.node v) (done.map .node) (ms.map .node) p s = .ok r t :=
      ih (hsome hv) hms (fun x hx => hable x (List.mem_append_right _ hx))
    simp only [List.map_cons]
    unfold shiftAlong
    rw [Edit.read_known hv.hasType_endl]
    cases previous with
    | none =>
      dsimp only
      rw [if_neg (by simp [Value.isNone])]
      exact hrest
    | some q =>
      have hq := hprevious q rfl
      dsimp only
      split
      · rw [Option.elim_some,Edit.read_known hq.hasType_endl]
        split
        · next hshift =>
          simp only [Bool.and_eq_true,Bool.not_eq_true',any_is_node,decide_eq_false_iff_not] at hshift
          obtain ⟨s₁,hline⟩ := shiftLine_runs (p := p) (hable q (by simp) hshift.1 hshift.2)
          have hstep := shiftLine_moves hq hshift.1 hline
          have hable' : ∀ x ∈ v :: ms, s₁.isEnd x = true → x ∉ q :: done → s₁.Shifts shift x := by
            intro x hx hend hnew
            rw [List.mem_cons,not_or] at hnew
            exact hstep.shifts (by simpa using hnew.1) (hable x (List.mem_append_right _ hx) (hstep.ends x ▸ hend) hnew.2)
          obtain ⟨r,t,hrun⟩ := ih (hsome (hv.reindents hstep.reindents)) (fun x hx => (hms x hx).reindents hstep.reindents) hable'
          exact ⟨r,t,Edit.bind_ok.mpr ⟨(),s₁,hline,hrun⟩⟩
        · exact hrest
      · exact hrest

/-- Where every line end that is met can be shifted, all are. -/
theorem shiftItems_runs {inside : List NodeId} (hprevious : ∀ x ∈ previous, o.Sprung s (.node x))
    (hinside : ∀ m ∈ inside, o.Sprung s (.node m))
    (horders : s.Orders inside orders)
    (hable : ∀ x ∈ previous.toList ++ orders.flatten, s.isEnd x = true → x ∉ done → s.Shifts shift x) :
    ∃ t, shiftItems shift (previous.elim .none .node) (done.map .node) (inside.map .node) p s = .ok () t := by
  induction inside generalizing previous done s orders with
  | nil => exact ⟨s,rfl⟩
  | cons v inside ih =>
    obtain ⟨order,orders,horder,hafter,rfl⟩ := List.forall₂_cons_left_iff.mp horders
    have hv := hinside v List.mem_cons_self
    have hinside := fun x hx => hinside x (List.mem_cons_of_mem v hx)
    obtain ⟨_,horder',hsprung⟩ := hv.order
    cases List.map_injective_iff.mpr (fun _ _ => Value.node.inj) (congrArg Flow.items (Except.ok.inj (horder.symm.trans horder')))
    obtain ⟨r,s₁,halong⟩ := shiftAlong_runs (p := p) hprevious hsprung (fun x hx => hable x (by
      rw [List.flatten_cons,← List.append_assoc]
      exact List.mem_append_left _ hx))
    obtain ⟨xs,hmoves,-,rfl,-⟩ := shiftAlong_moves hprevious hsprung halong
    have hlast : ∀ {x}, x ∈ order.getLast?.or previous → x ∈ previous.toList ++ order := by
      intro x hx
      rcases Option.or_eq_some_iff.mp hx with hx | ⟨-,hx⟩
      · exact List.mem_append_right _ (List.mem_of_getLast? hx)
      · exact List.mem_append_left _ (Option.mem_toList.mpr hx)
    have hfirst : ∀ x ∈ order.getLast?.or previous, o.Sprung s (.node x) := fun x hx =>
      (List.mem_append.mp (hlast hx)).elim (fun hx => hprevious x (Option.mem_toList.mp hx)) (hsprung x)
    have hable' : ∀ x ∈ (order.getLast?.or previous).toList ++ orders.flatten, s₁.isEnd x = true → x ∉ xs ++ done →
        s₁.Shifts shift x := by
      intro x hx hend hnew
      rw [List.mem_append,not_or] at hnew
      refine hmoves.shifts hnew.1 (hable x ?_ (hmoves.ends x ▸ hend) hnew.2)
      rw [List.flatten_cons,← List.append_assoc]
      rcases List.mem_append.mp hx with hx | hx
      · exact List.mem_append_left _ (hlast (Option.mem_toList.mp hx))
      · exact List.mem_append_right _ hx
    obtain ⟨t,hrest⟩ := ih (fun x hx => (hfirst x hx).reindents hmoves.reindents)
      (fun x hx => (hinside x hx).reindents hmoves.reindents) (hmoves.reads hinside hafter) hable'
    exact ⟨t,Edit.ask_ok.mpr ⟨_,horder,Edit.bind_ok.mpr ⟨_,s₁,halong,hrest⟩⟩⟩

end Succeeding

section Restoring

theorem NodeCell.put_back {c : NodeCell} {a : Attr} {v w : Value} (h : c.stored? a = some v) : (c.put a w).put a v = c := by
  obtain ⟨kind,parent,place,building,texts,lists,children,attrs,origin⟩ := c
  have hback : putPair a v (putPair a w attrs) = attrs := by
    replace h : attrs.lookup a = some v := h
    induction attrs with
    | nil => cases h
    | cons q attrs ih =>
      obtain ⟨b,y⟩ := q
      by_cases hb : b = a
      · subst hb
        rw [List.lookup_cons_self,Option.some.injEq] at h
        simp [putPair,h]
      · have hne : (a == b) = false := beq_false_of_ne (Ne.symm hb)
        rw [List.lookup_cons,hne] at h
        simp [putPair,hb,ih h]
  simp only [NodeCell.put,hback]

theorem Store.Tree.from_start (h : t.Tree i n) : t.TreeFrom 0 i n := by
  induction i generalizing n with
  | zero => exact h
  | succ i ih =>
    obtain ⟨c,hc⟩ := h
    exact ⟨Nat.zero_le _,c,hc.mono (fun m hm => ih hm)⟩

theorem shiftLines_moves {inside : List NodeId} (hinside : ∀ m ∈ inside, o.Sprung s (.node m))
    (horders : s.Orders inside orders)
    (hable : ∀ x ∈ orders.flatten, s.isEnd x = true → s.Shifts shift x) :
    ∃ t xs, shiftLines shift (inside.map .node) p s = .ok () t ∧ o.Moves shift xs s t ∧ ∀ x, x ∈ xs ↔ x ∈ s.lineStarts orders.flatten := by
  have hable : ∀ x ∈ (none : Option NodeId).toList ++ orders.flatten, s.isEnd x = true → x ∉ ([] : List NodeId) →
      s.Shifts shift x := fun x hx hend _ => hable x hx hend
  obtain ⟨t,hrun⟩ := shiftItems_runs (p := p) (by simp) hinside horders hable
  obtain ⟨orders',horders',xs,hmoves,-,hmem⟩ := shiftItems_moves (by simp) hinside hrun
  obtain rfl : orders = orders' := by
    refine List.right_unique_forall₂' (fun m a b ha hb => ?_) horders horders'
    exact List.map_injective_iff.mpr (fun _ _ => Value.node.inj) (congrArg Flow.items (Except.ok.inj (ha.symm.trans hb)))
  exact ⟨t,xs,hrun,hmoves,fun x => by simpa using hmem x⟩

end Restoring

section Main
variable {source : String} {w : ViewId} {l : ListId} {lc : ListCell}

/-- Shifting to the right and back. -/
theorem shift_lines_back (h : newDocument source p s = .ok (.view w) t) (hgrows : t.Grows u) (hl : u.lists[l.index]? = some lc)
    (hnodes : lc.flavour = .nodes) (hitems : lc.items = ms.map .node) (hms : ∀ m ∈ ms, u.Member w m)
    (hspaces : ∀ m ∈ ms, ∀ x, u.Descends everywhere m x → u.isEnd x = true → ∃ j, u.indent? x = some (.text (spaces j))) (k : Nat) :
    ∃ orders u', List.Forall₂ (fun m order => readingOrder (.node m) u = .ok ⟨order.map .node,none⟩) ms orders ∧
      call (.list l) "increase_indentation" (.ofList [.int k]) p u = .ok .none u' ∧ u'.lists = u.lists ∧ u'.views = u.views ∧
      (∀ x, x ∉ u.lineStarts orders.flatten → u'.nodes[x.index]? = u.nodes[x.index]?) ∧
      (∀ x ∈ u.lineStarts orders.flatten, ∃ c j, u.nodes[x.index]? = some c ∧ c.stored? (.field .indent) = some (.text (spaces j)) ∧
        u'.nodes[x.index]? = some (c.put (.field .indent) (.text (spaces (j + k))))) ∧
      call (.list l) "decrease_indentation" (.ofList [.int k]) p u' = .ok .none u := by
  obtain ⟨root,height,hdoc⟩ := newDocument_rooted h
  have hdoc := hdoc.grows hgrows
  have hdepth := hdoc.depth
  have hsprung : ∀ m ∈ ms, Store.empty.Sprung u (.node m) := fun m hm =>
    ⟨m,height,rfl,by omega,(hdoc.member (hms m hm)).from_start⟩
  have horder : ∀ m ∈ ms, ∃ order : List NodeId, readingOrder (.node m) u = .ok ⟨order.map .node,none⟩ ∧
      ∀ x ∈ order, u.Descends everywhere m x := by
    intro m hm
    obtain ⟨order,hdrop,hsub⟩ := dropRepeats_nodes (u.met height m) .none
    exact ⟨order,hdrop ▸ hdoc.readingOrder_below (hms m hm),fun x hx => (hdoc.member (hms m hm)).met_descends (hsub hx)⟩
  choose! order horder using horder
  have horders : u.Orders ms (ms.map order) :=
    List.forall₂_map_right_iff.mpr (List.forall₂_same.mpr (fun m hm => (horder m hm).1))
  have hwide : ∀ x ∈ (ms.map order).flatten, u.isEnd x = true → ∃ j, u.indent? x = some (.text (spaces j)) := by
    intro x hx hend
    rw [← List.flatMap_def,List.mem_flatMap] at hx
    obtain ⟨m,hm,hx⟩ := hx
    exact hspaces m hm x ((horder m hm).2 x hx) hend
  have hright : ∀ x ∈ (ms.map order).flatten, u.isEnd x = true → u.Shifts (.more (.int k)) x := fun x hx hend =>
    let ⟨_,hj⟩ := hwide x hx hend
    ⟨_,_,hj,Shift.more_spaces⟩
  obtain ⟨u',xs,hmore,hmoves,hxs⟩ := shiftLines_moves (p := p) hsprung horders hright
  have hmoved : ∀ x ∈ xs, ∃ c j, u.nodes[x.index]? = some c ∧ c.stored? (.field .indent) = some (.text (spaces j)) ∧
      u'.nodes[x.index]? = some (c.put (.field .indent) (.text (spaces (j + k)))) := by
    intro x hx
    have hstart := (hxs x).mp hx
    obtain ⟨j,hj⟩ := hwide x (Store.lineStarts_subset _ hstart) (Store.isEnd_of_lineStarts hstart)
    obtain ⟨a,b,ha,hb,hcell⟩ := hmoves.moved x hx
    cases hj.symm.trans ha
    cases Shift.more_spaces.symm.trans hb
    obtain ⟨c,hc,hv⟩ := Option.bind_eq_some_iff.mp hj
    exact ⟨c,j,hc,hv,by rw [hcell,hc]; rfl⟩
  have hleft : ∀ x ∈ (ms.map order).flatten, u'.isEnd x = true → u'.Shifts (.less (.int k)) x := by
    intro x hx hend
    by_cases hin : x ∈ xs
    · obtain ⟨c,j,-,-,hc⟩ := hmoved x hin
      exact ⟨_,_,Option.bind_eq_some_iff.mpr ⟨_,hc,NodeCell.stored_put_self _ _ _⟩,Shift.less_spaces⟩
    · obtain ⟨j,hj⟩ := hwide x hx (hmoves.ends x ▸ hend)
      exact hmoves.shifts hin ⟨_,_,hj,Shift.less_spaces⟩
  obtain ⟨u₂,ys,hless,hback,hys⟩ := shiftLines_moves (p := p) (fun m hm => (hsprung m hm).reindents hmoves.reindents)
    (hmoves.reads hsprung horders) hleft
  -- The second pass meets the same line ends, since these are told apart by their kinds.
  have hsame : ∀ x, x ∈ ys ↔ x ∈ xs := fun x => by rw [hys,hxs,Store.lineStarts_congr hmoves.ends]
  have hrestored : u₂ = u := by
    have hcells : u₂.nodes = u.nodes := by
      refine Array.ext_getElem? (fun i => ?_)
      by_cases hin : ⟨i⟩ ∈ xs
      · obtain ⟨c,j,hc,hv,hput⟩ := hmoved ⟨i⟩ hin
        obtain ⟨a,b,ha,hb,hcell⟩ := hback.moved ⟨i⟩ ((hsame _).mpr hin)
        rw [Store.indent?,hput] at ha
        cases (NodeCell.stored_put_self _ _ _).symm.trans ha
        rw [Shift.less_spaces,Nat.add_sub_cancel] at hb
        cases hb
        exact hcell.trans (by rw [hput,hc,Option.map_some,NodeCell.put_back hv])
      · exact (hback.kept ⟨i⟩ (fun h => hin ((hsame _).mp h))).trans (hmoves.kept ⟨i⟩ hin)
    cases u
    cases u₂
    simp only [Store.mk.injEq]
    exact ⟨hcells,hback.reindents.lists.trans hmoves.reindents.lists,hback.reindents.views.trans hmoves.reindents.views⟩
  refine ⟨_,u',horders,?_,hmoves.reindents.lists,hmoves.reindents.views,fun x hx => hmoves.kept x (fun h => hx ((hxs x).mp h)),
    fun x hx => hmoved x ((hxs x).mpr hx),?_⟩
  · refine (call_list (by decide) hl hnodes rfl).trans ?_
    exact Edit.bind_ok.mpr ⟨_,u,rfl,Edit.ask_ok.mpr ⟨lc,Read.list_ok.mpr hl,Edit.bind_ok.mpr ⟨(),u',hitems ▸ hmore,rfl⟩⟩⟩
  · have hl : u'.lists[l.index]? = some lc := hmoves.reindents.lists ▸ hl
    refine (call_list (by decide) hl hnodes rfl).trans ?_
    exact Edit.bind_ok.mpr ⟨_,u',rfl,Edit.ask_ok.mpr ⟨lc,Read.list_ok.mpr hl,Edit.bind_ok.mpr
      ⟨(),u₂,hitems ▸ hless,hrestored ▸ rfl⟩⟩⟩

/-- Three loops in a row, the lines of which are not indented. -/
theorem shift_lines_back_loops : ∃ w t l u, newDocument "" loopsParser .empty = .ok (.view w) t ∧ t.isEnd ⟨5⟩ = true ∧
    call (.list l) "increase_indentation" (.ofList [.int 2]) loopsParser t = .ok .none u ∧
    call (.list l) "decrease_indentation" (.ofList [.int 2]) loopsParser u = .ok .none t := by
  have hall : (newDocument "").ensures loopsParser .empty (fun _ t => t.isEnd ⟨5⟩ &&
      (List.range t.nodes.size).all (fun i => !t.isEnd ⟨i⟩ || (t.width? ⟨i⟩).isSome)) = true := by decide +kernel
  obtain ⟨v,t,h,hall⟩ := Edit.ensures_iff.mp hall
  obtain ⟨hend,hwide⟩ := Bool.and_eq_true_iff.mp hall
  obtain ⟨w,root,height,rfl,hdoc⟩ := newDocument_document h
  obtain ⟨ms,hms,hl,-⟩ := hdoc.nodes
  have hspaces : ∀ x, t.isEnd x = true → ∃ j, t.indent? x = some (.text (spaces j)) := by
    intro x hx
    have hwidth := List.all_eq_true.mp hwide x.index (List.mem_range.mpr (Store.lt_of_isEnd hx))
    rw [hx,Bool.not_true,Bool.false_or] at hwidth
    obtain ⟨j,hj⟩ := Option.isSome_iff_exists.mp hwidth
    exact ⟨j,Store.indent_of_width hj⟩
  obtain ⟨_,u,-,hmore,-,-,-,-,hless⟩ := shift_lines_back h (.refl t) hl rfl rfl (fun m hm => ⟨m,hms.symm ▸ hm,.self⟩)
    (fun _ _ x _ => hspaces x) 2
  exact ⟨w,t,root,u,h,hend,hmore,hless⟩

end Main

end CodeTree
