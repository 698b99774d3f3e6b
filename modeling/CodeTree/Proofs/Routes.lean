import CodeTree.Proofs.Asking
import CodeTree.Proofs.Searching

/-! # Routes in a document

The keys that lead from the list of a document down to a node or list, and the keys found by climbing up from
it, are the same, and following them leads back to where the climb began.
-/
namespace CodeTree
variable {f : Field} {form : Form} {key : Key} {lc : ListCell} {l : ListId} {j k : Nat} {mc c : NodeCell} {m n : NodeId}
  {P : NodeId → Prop} {v u x : Value} {vc : ViewCell} {w : ViewId}

section Climbing
variable {t : Store} {n : NodeId} {c : NodeCell} {f : Field} {i : Nat} {x : ListId} {xc : ListCell}

/-- The list of its nodes that a value names, if it has one. -/
def innerList (v : Value) : Read Value := Read.orElseMissing (plainAttr v (.other "node_list")) (pure .none)

theorem innerList_view (hw : t.views[w.index]? = some vc) (hextra : vc.extra = []) :
    innerList (.view w) t = .ok vc.target := by
  have hattr : plainAttr (.view w) (.other "node_list") t = .ok vc.target := by
    change (Read.view w >>= _) t = _
    rw [Read.view_known hw,ViewCell.own_nodes hextra]
    rfl
  unfold innerList Read.orElseMissing
  rw [hattr]

theorem innerList_ofDatum (d : Datum) : innerList (.ofDatum d) t = .ok .none := by
  cases d <;> rfl

/-- A value is not the list, and the list of its nodes is not it either. -/
def Store.Apart (t : Store) (x : ListId) (v : Value) : Prop := v ≠ .list x ∧ (innerList v).Returns t (· ≠ .list x)

theorem apart_ofDatum (d : Datum) : t.Apart x (.ofDatum d) := by
  refine ⟨?_,.of_ok (innerList_ofDatum d) (fun h => by cases h)⟩
  cases d <;> exact fun h => by cases h

theorem apart_node (hm : t.Tree j m) (hdepth : j + 2 ≤ t.depth) (hmc : t.nodes[m.index]? = some mc)
    (hx : t.lists[x.index]? = some xc) (hne : (∃ w, mc.stored? (.field .value) = some (.view w)) → xc.parent ≠ .node m) :
    t.Apart x (.node m) := by
  refine ⟨(fun h => by cases h),(hm.look_nodes hdepth hmc).orElse.imp (fun u hu h => ?_)⟩
  obtain ⟨hview,lc,hlc,hparent⟩ := hu x h
  rw [hx] at hlc
  cases hlc
  exact hne hview hparent

section Least
variable (hleast : ∀ j, j < i → ¬ t.Tree j n) (hdepth : i + 2 ≤ t.depth) (hx : t.lists[x.index]? = some xc)
  (hparent : xc.parent = .node n)
include hleast hdepth hx hparent

theorem Store.Below.apart (hv : t.Below i v) : t.Apart x v := by
  rcases hv with rfl | ⟨m,j,rfl,hj,hm⟩
  · exact apart_ofDatum .null
  · obtain ⟨mc,hmc⟩ : ∃ mc, t.nodes[m.index]? = some mc := by
      cases j with
      | zero => exact hm.elim
      | succ j =>
        obtain ⟨mc,hs⟩ := hm
        exact ⟨mc,hs.cell⟩
    refine apart_node hm (by omega) hmc hx (fun _ h => ?_)
    rw [hparent] at h
    cases h
    exact hleast j hj hm

/-- What a node bears under another field is not the list. -/
theorem Store.Bears.apart {g : Field} (hb : t.Bears (t.Tree j) n g form v) (hj : j < i) (hflavour : xc.flavour = .nodes)
    (hplace : xc.place ≠ some (.field g)) : t.Apart x v := by
  cases hb with
  | datum d => exact apart_ofDatum d
  | empty => exact apart_ofDatum .null
  | @child m hangs below => exact Store.Below.apart hleast hdepth hx hparent (.inr ⟨m,j,rfl,hj,below⟩)
  | @loose l lc _ cell plain =>
    refine ⟨fun h => ?_,.of_ok (a := .none) ?_ (fun h => by cases h)⟩
    · cases h
      rw [hx] at cell
      cases cell
      rw [plain] at hflavour
      cases hflavour
    · have hthrow : plainAttr (.list l) (.other "node_list") t = .error .noAttribute := by
        change (Read.list l >>= _) t = _
        rw [Read.list_known cell,plain]
        rfl
      unfold innerList Read.orElseMissing
      rw [hthrow]
      rfl
  | @row form v l ms hform covers cell siblings =>
    have hne : l ≠ x := by
      rintro rfl
      rw [hx] at cell
      cases cell
      exact hplace rfl
    rcases covers with rfl | ⟨w,vc,rfl,hw,htarget,hextra⟩
    · refine ⟨fun h => hne (by cases h; rfl),?_⟩
      have hsearch : (attrWith look t.depth (.list l) (.other "node_list")).Returns t (t.Below (j + 1)) :=
        attrWith_list_returns cell rfl rfl siblings.each rfl (by decide +kernel) (by omega) (look_at t) (by omega)
      refine (Read.Returns.orElse (.known rfl hsearch)).imp (fun u hu h => ?_)
      rcases hu with rfl | ⟨_,_,rfl,-⟩ <;> cases h
    · refine ⟨(fun h => by cases h),.of_ok (innerList_view hw hextra) ?_⟩
      rw [htarget]
      exact fun h => hne (by cases h; rfl)

/-- What is found under the word of a slot that is not the one of the list is not the list. -/
theorem Store.Tree.apart (hn : t.Tree i n) (hc : t.nodes[n.index]? = some c) (hflavour : xc.flavour = .nodes) {slot : Slot}
    (hslot : slot ∈ c.kind.layout) (hplace : xc.place ≠ some (.ofWord slot.word)) :
    (look n (.ofWord slot.word)).Returns t (t.Apart x) := by
  obtain ⟨j,rfl,hs⟩ := hn.stands hc
  cases hv : c.stored? (.ofWord slot.word) with
  | some v =>
    obtain ⟨g,hg⟩ : ∃ g, Attr.ofWord slot.word = .field g := by
      rcases hs.own _ v hv with h | ⟨g,-,h⟩
      · exact ⟨_,h⟩
      · exact ⟨g,h⟩
    rw [hg] at hv hplace ⊢
    refine .of_ok (look_stored hc hv) ?_
    rcases hs.stored hv with ⟨word,rfl⟩ | ⟨form,hb⟩
    · exact apart_ofDatum (.text word)
    · exact hb.apart hleast hdepth hx hparent (Nat.lt_succ_self j) hflavour hplace
  | none =>
    cases slot with
    | field form g shown =>
      obtain ⟨v,hv',-⟩ := hs.bears form g shown hslot
      rw [show Attr.ofWord (Slot.field form g shown).word = .field g from Attr.ofWord_word g,hv'] at hv
      cases hv
    | constant text shown =>
      have hquiet := layout_quiet hslot
      have hsought : plainlySought (Attr.ofWord text).word = true := by
        rw [Attr.word_ofWord]
        exact hquiet.2
      refine (hn.look_missing hdepth hc hquiet.1 hsought hv).imp (fun v hv => ?_)
      rcases hv with hv | ⟨rfl,hview⟩
      · exact hv.apart hleast hdepth hx hparent
      · exact apart_node hn hdepth hc hx (fun ⟨w,hw⟩ => absurd hw (hview w))

/-- A list that hangs at a field is found there: no slot before it names the list. -/
theorem slotHolding_list (hn : t.Tree i n) (hc : t.nodes[n.index]? = some c) (hflavour : xc.flavour = .nodes)
    (hplace : xc.place = some (.field f)) (hv : c.stored? (.field f) = some v) (hcovers : t.Covers v x) {slots : List Slot}
    (hslots : ∀ slot ∈ slots, slot ∈ c.kind.layout) (hmem : ∃ slot ∈ slots, slot.word = f.word) :
    slotHolding n (.list x) slots t = .ok (some (.name f.word)) := by
  induction slots with
  | nil => simp at hmem
  | cons slot slots ih =>
    by_cases hword : Attr.ofWord slot.word = .field f
    · have hf : slot.word = f.word := by
        rw [← Attr.word_ofWord slot.word,hword]
        rfl
      unfold slotHolding
      rw [hword,Read.bind_known (look_stored hc hv),hf]
      rcases hcovers with rfl | ⟨w,vc,rfl,hw,htarget,hextra⟩
      · rw [if_pos (Value.is_list.mpr rfl)]
        rfl
      · rw [if_neg (by simp [Value.is])]
        change (innerList _ >>= _) t = _
        rw [Read.bind_known (innerList_view hw hextra),htarget,if_pos (Value.is_list.mpr rfl)]
        rfl
    · have hother : xc.place ≠ some (.ofWord slot.word) := by
        rw [hplace]
        intro h
        exact hword (Option.some.inj h).symm
      obtain ⟨held,hheld,hapart,inner,hinner,hne⟩ :=
        hn.apart hleast hdepth hx hparent hc hflavour (hslots slot List.mem_cons_self) hother
      have hrest : ∃ slot ∈ slots, slot.word = f.word := by
        obtain ⟨slot',hmem,hf⟩ := hmem
        rcases List.mem_cons.mp hmem with rfl | hmem
        · rw [hf,Attr.ofWord_word] at hword
          exact absurd rfl hword
        · exact ⟨slot',hmem,hf⟩
      unfold slotHolding
      rw [Read.bind_known hheld,if_neg (fun h => hapart (Value.is_list.mp h))]
      change (innerList held >>= _) t = _
      rw [Read.bind_known hinner,if_neg (fun h => hne (Value.is_list.mp h))]
      exact ih (List.forall_mem_cons.mp hslots).2 hrest

end Least

theorem indexOf_first {xs : List Value} (hxs : ∀ x ∈ xs, x = .none ∨ ∃ m, x = .node m) (hm : xs[k]? = some (.node m))
    (hfirst : .node m ∉ xs.take k) : indexOf (.node m) xs t = .ok k := by
  have hfound : indexOf? (.node m) xs t = .ok (some k) := by
    induction xs generalizing k with
    | nil => simp at hm
    | cons x xs ih =>
      have hequal : equal x (.node m) t = .ok (x.is (.node m)) := by
        rcases hxs x List.mem_cons_self with rfl | ⟨x,rfl⟩
        · rfl
        · rfl
      simp only [indexOf?]
      rw [Read.bind_known hequal]
      cases k with
      | zero =>
        obtain rfl : x = .node m := by simpa using hm
        rw [if_pos (Value.is_node.mpr rfl)]
        rfl
      | succ k =>
        rw [List.take_succ_cons,List.mem_cons,not_or] at hfirst
        have hrest := ih (List.forall_mem_cons.mp hxs).2 (by simpa using hm) hfirst.2
        rw [if_neg (fun h => hfirst.1 (Value.is_node.mp h).symm),Read.bind_known hrest]
        rfl
  unfold indexOf
  rw [Read.bind_known hfound]
  rfl

theorem indexOf_node {ms : List NodeId} (hnodup : ms.Nodup) (hm : ms[k]? = some m) :
    indexOf (.node m) (ms.map .node) t = .ok k := by
  refine indexOf_first (fun x hx => ?_) (by simp [hm]) (fun hmem => ?_)
  · obtain ⟨m,-,rfl⟩ := List.mem_map.mp hx
    exact .inr ⟨m,rfl⟩
  · rw [← List.map_take,List.mem_map] at hmem
    obtain ⟨m',hmem,heq⟩ := hmem
    cases heq
    rw [← List.take_append_drop k ms] at hnodup
    refine (List.nodup_append.mp hnodup).2.2 m hmem m ?_ rfl
    exact List.mem_of_getElem? (i := 0) (by simpa using hm)

/-- What a value is held by, and under which key. -/
def Store.HeldAs (t : Store) (v : Value) (key : Key) (above : Value) : Prop :=
  holder v t = .ok above ∧ holderKey v t = .ok (some key)

section Holders
variable {m : NodeId} {v held : Value} {l : ListId} {lc : ListCell} {ms : List NodeId} {k : Nat}

theorem placeOf_node (hm : t.nodes[m.index]? = some mc) : placeOf (.node m) t = .ok mc.place := by
  change (Read.node m >>= _) t = _
  rw [Read.node_known hm]
  rfl

theorem parentOf_node (hm : t.nodes[m.index]? = some mc) : parentOf (.node m) t = .ok mc.parent := by
  change (Read.node m >>= _) t = _
  rw [Read.node_known hm]
  rfl

theorem placeOf_list (hx : t.lists[x.index]? = some xc) (hflavour : xc.flavour = .nodes) :
    placeOf (.list x) t = .ok xc.place := by
  change (Read.list x >>= _) t = _
  rw [Read.list_known hx,hflavour]
  rfl

theorem parentOf_list (hx : t.lists[x.index]? = some xc) (hflavour : xc.flavour = .nodes) (hextra : xc.extra = []) :
    parentOf (.list x) t = .ok xc.parent := by
  have hown : xc.own? (.other "parent") = some xc.parent := by
    unfold ListCell.own?
    rw [hextra]
    rfl
  change (Read.list x >>= _) t = _
  rw [Read.list_known hx,hflavour]
  simp only [beq_self_eq_true,if_true]
  rw [hown]
  rfl

theorem behind_view {vc : ViewCell} (hw : t.views[w.index]? = some vc) (htarget : vc.target = .list l) :
    behind (.view w) t = .ok (.list l) := by
  change (Read.view w >>= _) t = _
  rw [Read.view_known hw,htarget]
  rfl

theorem behind_covers (h : t.Covers held l) : behind held t = .ok (.list l) := by
  rcases h with rfl | ⟨w,vc,rfl,hw,htarget,-⟩
  · rfl
  · exact behind_view hw htarget

theorem Store.Document.rooted {root : ListId} {height : Nat} (h : t.Document w root height) :
    behind (.view w) t = .ok (.list root) := by
  obtain ⟨vc,hw,-,htarget,-⟩ := h.view
  exact behind_view hw htarget

theorem holder_field (hplace : placeOf v t = .ok (some (.field f))) (hparent : parentOf v t = .ok (.node n))
    (hheld : look n (.field f) t = .ok held) (hbehind : behind held t = .ok u) :
    holder v t = .ok (if u.is v then .node n else u) := by
  unfold holder
  rw [Read.bind_known hplace,Read.bind_known hparent]
  dsimp only
  rw [Read.bind_known hheld]
  cases held with
  | view w =>
    obtain ⟨vc,hw,htarget⟩ := Read.bind_ok.mp hbehind
    obtain rfl := Read.pure_ok.mp htarget
    dsimp only
    rw [Read.bind_known hw]
    rfl
  | _ =>
    obtain rfl := Read.pure_ok.mp hbehind
    rfl

theorem holderKey_item {held : Value} (hholder : holder (.node m) t = .ok held) (hheld : held = .list l ∨
      ∃ w vc, held = .view w ∧ t.views[w.index]? = some vc ∧ vc.form = .document ∧ vc.target = .list l)
    (hl : t.lists[l.index]? = some lc) (hflavour : lc.flavour = .nodes) (hindex : indexOf (.node m) lc.items t = .ok k) :
    holderKey (.node m) t = .ok (some (.index k)) := by
  unfold holderKey
  rw [Read.bind_known hholder]
  rcases hheld with rfl | ⟨w,vc,rfl,hw,hform,htarget⟩
  on_goal 2 =>
    change (Read.view w >>= _) t = _
    rw [Read.view_known hw,hform,htarget]
  all_goals
    change (Read.list l >>= _) t = _
    rw [Read.list_known hl,hflavour]
    simp only [beq_self_eq_true,if_true]
    change (indexOf (.node m) lc.items >>= _) t = _
    rw [Read.bind_known hindex]
    rfl

theorem holderKey_child (hholder : holder (.node m) t = .ok (.node n)) (hc : t.nodes[n.index]? = some c)
    (hlayout : c.layout = .ok c.kind.layout) (hmc : t.nodes[m.index]? = some mc) (hplace : mc.place = some (.field f))
    {shown : Shown} (hslot : .field form f shown ∈ c.kind.layout) : holderKey (.node m) t = .ok (some (.name f.word)) := by
  unfold holderKey
  rw [Read.bind_known hholder]
  change (Read.node n >>= _) t = _
  rw [Read.node_known hc,Read.bind_known (Read.lift_ok.mpr hlayout)]
  change (placeOf (.node m) >>= _) t = _
  rw [Read.bind_known (placeOf_node hmc),hplace,Read.pure_ok]
  have hsome : (c.kind.layout.find? (fun slot => some slot.word == (some (Attr.field f)).map Attr.word)).isSome = true := by
    rw [List.find?_isSome]
    exact ⟨_,hslot,by simp [Slot.word,Attr.word]⟩
  obtain ⟨slot,hfound⟩ := Option.isSome_iff_exists.mp hsome
  have hword : slot.word = f.word := by simpa [Attr.word] using List.find?_some hfound
  rw [hfound,Option.map_some,hword]

theorem holderKey_list (hholder : holder (.list x) t = .ok (.node n)) (hc : t.nodes[n.index]? = some c)
    (hlayout : c.layout = .ok c.kind.layout) (hx : t.lists[x.index]? = some xc) (hflavour : xc.flavour = .nodes) :
    holderKey (.list x) t = slotHolding n (.list x) c.kind.layout t := by
  unfold holderKey
  rw [Read.bind_known hholder]
  change (Read.node n >>= _) t = _
  rw [Read.node_known hc,Read.bind_known (Read.lift_ok.mpr hlayout)]
  refine (Read.bind_known (a := true) ?_).trans rfl
  dsimp only
  rw [Read.list_known hx,hflavour]
  rfl

end Holders

end Climbing

section Reaching

/-- What keys lead to from a list: positions lead to the items of a list, the words of slots to the child
that a node holds there, or to the list of nodes that it holds there, bare or behind a view. -/
inductive Store.Reaches (t : Store) (root : ListId) : List Key → Value → Prop where
  | root : Store.Reaches t root [] (.list root)
  | item {keys : List Key} {l : ListId} {lc : ListCell} {k : Nat} {m : NodeId} (above : Store.Reaches t root keys (.list l))
      (cell : t.lists[l.index]? = some lc) (member : lc.items[k]? = some (.node m)) :
      Store.Reaches t root (keys ++ [.index k]) (.node m)
  | child {keys : List Key} {n : NodeId} {c : NodeCell} {slots : List Slot} {form : Form} {f : Field} {shown : Shown}
      {m : NodeId} (above : Store.Reaches t root keys (.node n)) (cell : t.nodes[n.index]? = some c)
      (layout : c.layout = .ok slots) (slot : .field form f shown ∈ slots)
      (held : c.stored? (.field f) = some (.node m)) : Store.Reaches t root (keys ++ [.name f.word]) (.node m)
  | list {keys : List Key} {n : NodeId} {c : NodeCell} {slots : List Slot} {form : Form} {f : Field} {shown : Shown}
      {held : Value} {l : ListId} {lc : ListCell} (above : Store.Reaches t root keys (.node n))
      (cell : t.nodes[n.index]? = some c) (layout : c.layout = .ok slots) (slot : .field form f shown ∈ slots)
      (stored : c.stored? (.field f) = some held) (behind : behind held t = .ok (.list l))
      (behindCell : t.lists[l.index]? = some lc) (nodes : lc.flavour = .nodes) :
      Store.Reaches t root (keys ++ [.name f.word]) (.list l)

/-- Climbing from a value collects the keys. -/
def Store.Climbs (t : Store) (keys : List Key) (v : Value) : Prop :=
  ∀ fuel below, keysFrom (fuel + keys.length + 2) v below t = .ok (keys ++ below)

variable {t : Store} {keys : List Key} {root : ListId} {height : Nat}

theorem Store.HeldAs.climbs {above : Value} (h : t.HeldAs v key above) (hv : v.isNone = false) (habove : t.Climbs keys above) :
    t.Climbs (keys ++ [key]) v := by
  intro fuel below
  rw [List.length_append,List.length_singleton,show fuel + (keys.length + 1) + 2 = fuel + keys.length + 2 + 1 by omega]
  unfold keysFrom
  rw [hv]
  simp only [Bool.false_eq_true,if_false]
  rw [Read.bind_known h.2,Read.bind_known h.1]
  rw [habove fuel (key :: below),List.append_assoc]
  rfl

theorem climbs_top (hv : v.isNone = false) (hholder : holder v t = .ok .none) : t.Climbs [] v := by
  intro fuel below
  have hkey : holderKey v t = .ok none := by
    unfold holderKey
    rw [Read.bind_known hholder]
    rfl
  unfold keysFrom
  rw [hv]
  simp only [Bool.false_eq_true,if_false]
  rw [Read.bind_known hkey,Read.bind_known hholder]
  rfl

/-- Following keys and then more of them is following more from where the keys lead. -/
def Store.LeadsTo (t : Store) (root : ListId) (keys : List Key) (v : Value) : Prop :=
  ∀ rest, follow (.list root) (keys.map Key.toValue ++ rest) t = follow v rest t

/-- A node or list where keys lead, as climbing and following have it. A list comes with what holds its
items, from which the climb goes on. -/
inductive Store.Reached (t : Store) (root : ListId) (height : Nat) (keys : List Key) : Value → Prop where
  | node {n : NodeId} {i : Nat} (tree : t.Tree i n) (short : keys.length + 2 * i ≤ 2 * height + 1)
      (climbs : t.Climbs keys (.node n)) (leads : t.LeadsTo root keys (.node n)) :
      Store.Reached t root height keys (.node n)
  | list {l : ListId} {lc : ListCell} {ms : List NodeId} {i : Nat} {held above : Value}
      (cell : t.lists[l.index]? = some lc) (items : lc.items = ms.map .node) (nodes : lc.flavour = .nodes)
      (trees : ∀ m ∈ ms, t.Tree i m) (short : keys.length + 2 * i ≤ 2 * height) (climbs : t.Climbs keys (.list l))
      (itemsHeld : ∀ (k : Nat) m, ms[k]? = some m → t.HeldAs (.node m) (.index k) above) (goesOn : t.Climbs keys above)
      (covers : t.Covers held l) (leads : t.LeadsTo root keys held) : Store.Reached t root height keys (.list l)

section Steps

theorem follow_item {held : Value} (hcovers : t.Covers held l) (hl : t.lists[l.index]? = some lc)
    (hk : lc.items[k]? = some (.node m)) (rest : List Value) : follow held (.int k :: rest) t = follow (.node m) rest t := by
  have hitems : items (.list l) t = .ok lc.items := by
    change (Read.list l >>= _) t = _
    rw [Read.list_known hl]
    rfl
  obtain ⟨hlt,-⟩ := List.getElem?_eq_some_iff.mp hk
  have hindex : indexIn? lc.items.length k = some k := by
    have hpos : ¬ (k : Int) < 0 := by omega
    simp [indexIn?,hpos,hlt]
  have hfound : (indexIn? lc.items.length k).bind (fun j => lc.items[j]?) = some (.node m) := by
    rw [hindex,Option.bind_some,hk]
  conv_lhs => unfold follow
  rw [Read.bind_known (behind_covers hcovers)]
  change (items (.list l) >>= _) t = _
  rw [Read.bind_known hitems]
  change (if (k : Int) ≥ (lc.items.length : Int) then _ else _ : Read (Option Value)) t = _
  rw [if_neg (by omega),Read.bind_known hitems,hfound]
  exact Read.bind_known rfl

theorem follow_field {held : Value} (hc : t.nodes[n.index]? = some c) (hv : c.stored? (.field f) = some held)
    (hstep : stepTo (.node n) held t = .ok held) (rest : List Value) :
    follow (.node n) (.text f.word :: rest) t = follow held rest t := by
  have hattr : Read.orElseMissing (some <$> attr (.node n) f.word) (pure none) t = .ok (some held) := by
    have hsome : (some <$> attr (.node n) f.word) t = .ok (some held) := by
      rw [map_eq_pure_bind,Read.bind_known (attr_stored hc hv)]
      rfl
    unfold Read.orElseMissing
    rw [hsome]
  conv_lhs => unfold follow
  rw [Read.bind_known hattr]
  exact Read.bind_known hstep

end Steps

theorem stepTo_covers {held : Value} (hcovers : t.Covers held l) (hl : t.lists[l.index]? = some lc)
    (hflavour : lc.flavour = .nodes) : stepTo (.node n) held t = .ok held := by
  rcases hcovers with rfl | ⟨w,vc,rfl,-⟩
  · change (Read.list l >>= _) t = _
    rw [Read.list_known hl,hflavour]
    rfl
  · rfl

theorem Store.LeadsTo.snoc (h : t.LeadsTo root keys v) (hstep : ∀ rest, follow v (key.toValue :: rest) t = follow u rest t) :
    t.LeadsTo root (keys ++ [key]) u := by
  intro rest
  rw [List.map_append,List.append_assoc,h]
  exact hstep rest

/-- What a field that a list of nodes lies behind bears. -/
theorem Store.Stands.row {held : Value} (hs : t.Stands P n c) (hv : c.stored? (.field f) = some held)
    (hbehind : behind held t = .ok (.list l)) (hl : t.lists[l.index]? = some lc) (hflavour : lc.flavour = .nodes) :
    t.Covers held l ∧ ∃ ms : List NodeId, lc = ⟨.nodes,ms.map .node,.node n,some (.field f),[]⟩ ∧
      t.Siblings P (.node n) (.field f) ms := by
  rcases hs.stored hv with ⟨word,rfl⟩ | ⟨form,hb⟩
  · cases hbehind
  · cases hb with
    | datum d => cases d <;> cases hbehind
    | empty => cases hbehind
    | child => cases hbehind
    | loose cell plain =>
      cases hbehind
      rw [hl] at cell
      cases cell
      rw [plain] at hflavour
      cases hflavour
    | @row form v l' ms hform covers cell siblings =>
      have hsame := behind_covers covers
      rw [hbehind] at hsame
      cases hsame
      rw [hl] at cell
      cases cell
      exact ⟨covers,ms,rfl,siblings⟩

section Held
variable {n : NodeId} {c : NodeCell} {f : Field} {form : Form} {shown : Shown}

theorem Store.Stands.child (hs : t.Stands P n c) (hslot : .field form f shown ∈ c.kind.layout)
    (hv : c.stored? (.field f) = some (.node m)) :
    P m ∧ t.Hangs (.node n) (.field f) m ∧ t.HeldAs (.node m) (.name f.word) (.node n) := by
  obtain ⟨v,hv',hb⟩ := hs.bears form f shown hslot
  rw [hv] at hv'
  obtain rfl := Option.some.inj hv'
  generalize hx : Value.node m = x at hb
  cases hb with
  | datum d => cases d <;> cases hx
  | empty => cases hx
  | loose => cases hx
  | row hform covers => rcases covers with rfl | ⟨_,_,rfl,-⟩ <;> cases hx
  | child hangs below =>
    cases hx
    obtain ⟨mc,hmc,hparent,hplace⟩ := hangs
    have hplaceOf := placeOf_node hmc
    have hparentOf := parentOf_node hmc
    rw [hplace] at hplaceOf
    rw [hparent] at hparentOf
    have hholder := holder_field hplaceOf hparentOf (look_stored hs.cell hv) rfl
    rw [if_pos (Value.is_node.mpr rfl)] at hholder
    exact ⟨below,⟨mc,hmc,hparent,hplace⟩,hholder,holderKey_child hholder hs.cell hs.layout hmc hplace hslot⟩

variable {i : Nat} {held : Value} {l : ListId} {ms : List NodeId} (hv : c.stored? (.field f) = some held)
  (hcovers : t.Covers held l) (hl : t.lists[l.index]? = some ⟨.nodes,ms.map .node,.node n,some (.field f),[]⟩)
include hv hcovers hl

theorem Store.Tree.list_heldAs (htree : t.Tree i n) (hdepth : i + 2 ≤ t.depth) (hc : t.nodes[n.index]? = some c)
    (hslot : .field form f shown ∈ c.kind.layout) : t.HeldAs (.list l) (.name f.word) (.node n) := by
  -- The least height of the tree is what tells the node from those below it.
  obtain ⟨j,hj,hleastTree,hleast⟩ := htree.least
  obtain ⟨_,-,hs⟩ := htree.stands hc
  have hholder := holder_field (placeOf_list hl rfl) (parentOf_list hl rfl rfl) (look_stored hc hv) (behind_covers hcovers)
  rw [if_pos (Value.is_list.mpr rfl)] at hholder
  refine ⟨hholder,?_⟩
  rw [holderKey_list hholder hc hs.layout hl rfl]
  exact slotHolding_list hleast (by omega) hl rfl hleastTree hc rfl rfl hv hcovers (fun _ h => h) ⟨_,hslot,rfl⟩

theorem Store.Siblings.heldAs (hms : t.Siblings P (.node n) (.field f) ms) (hc : t.nodes[n.index]? = some c)
    (hm : ms[k]? = some m) : t.HeldAs (.node m) (.index k) (.list l) := by
  obtain ⟨mc,hmc,hparent,hplace⟩ := hms.hang m (List.mem_of_getElem? hm)
  have hplaceOf := placeOf_node hmc
  have hparentOf := parentOf_node hmc
  rw [hplace] at hplaceOf
  rw [hparent] at hparentOf
  have hholder := holder_field hplaceOf hparentOf (look_stored hc hv) (behind_covers hcovers)
  rw [if_neg (by simp [Value.is])] at hholder
  exact ⟨hholder,holderKey_item hholder (.inl rfl) hl rfl (indexOf_node hms.nodup hm)⟩

end Held

section Document
variable {w : ViewId}

theorem Store.Document.parentOf (h : t.Document w root height) : CodeTree.parentOf (.view w) t = .ok .none := by
  obtain ⟨vc,hw,-,-,-,hparent,hextra⟩ := h.view
  have hown : vc.own? (.other "parent") = some .none := by
    unfold ViewCell.own?
    rw [hextra,hparent]
    rfl
  change (Read.view w >>= _) t = _
  rw [Read.view_known hw,hown]
  rfl

theorem Store.Document.reached (h : t.Document w root height) : t.Reached root height [] (.list root) := by
  obtain ⟨vc,hw,hform,htarget,hplace,-⟩ := h.view
  obtain ⟨ms,hl,hms⟩ := h.rows
  have htop : holder (.list root) t = .ok .none := by
    unfold holder
    rw [Read.bind_known (placeOf_list hl rfl),Read.bind_known (parentOf_list hl rfl rfl)]
    rfl
  have hview : holder (.view w) t = .ok .none := by
    have hplaceOf : placeOf (.view w) t = .ok none := by
      change (Read.view w >>= _) t = _
      rw [Read.view_known hw,hplace]
      rfl
    unfold holder
    rw [Read.bind_known hplaceOf,Read.bind_known h.parentOf]
    rfl
  have hheld : ∀ (k : Nat) m, ms[k]? = some m → t.HeldAs (.node m) (.index k) (.view w) := by
    intro k m hm
    obtain ⟨mc,hmc,hp,hpl⟩ := hms.hang m (List.mem_of_getElem? hm)
    have hholder : holder (.node m) t = .ok (.view w) := by
      unfold holder
      rw [Read.bind_known (placeOf_node hmc),Read.bind_known (parentOf_node hmc),hp,hpl]
      rfl
    exact ⟨hholder,holderKey_item hholder (.inr ⟨_,_,rfl,hw,hform,htarget⟩) hl rfl (indexOf_node hms.nodup hm)⟩
  exact .list hl rfl rfl hms.each (by simp) (climbs_top rfl htop) hheld (climbs_top rfl hview) (.inl rfl) (fun rest => rfl)

/-- Wherever keys lead, climbing gives these keys and following them leads there. -/
theorem Store.Document.reaches (h : t.Document w root height) (hx : t.Reaches root keys x) :
    t.Reached root height keys x := by
  have hdepth := h.depth
  induction hx with
  | root => exact h.reached
  | @item keys l lc k m _ cell member ih =>
    obtain _ | ⟨hl,hitems,hnodes,htrees,hshort,hclimbs,hheld,hgoesOn,hcovers,hleads⟩ := ih
    rw [cell] at hl
    cases hl
    have hm := member
    rw [hitems,List.getElem?_map] at hm
    obtain ⟨m',hm,heq⟩ := Option.map_eq_some_iff.mp hm
    cases heq
    refine .node (htrees m (List.mem_of_getElem? hm)) ?_ ((hheld k m hm).climbs rfl hgoesOn)
      (hleads.snoc (follow_item hcovers cell member))
    rw [List.length_append,List.length_singleton]
    omega
  | @child keys n c slots form f shown m _ cell layout slot held ih =>
    obtain ⟨htree,hshort,hclimbs,hleads⟩ | _ := ih
    obtain ⟨i,rfl,hs⟩ := htree.stands cell
    rw [hs.layout] at layout
    cases layout
    obtain ⟨hm,-,hheld⟩ := hs.child slot held
    refine .node hm ?_ (hheld.climbs rfl hclimbs) (hleads.snoc (follow_field cell held rfl))
    rw [List.length_append,List.length_singleton]
    omega
  | @list keys n c slots form f shown held l lc _ cell layout slot stored hbehind behindCell nodes ih =>
    obtain ⟨htree,hshort,hclimbs,hleads⟩ | _ := ih
    obtain ⟨i,rfl,hs⟩ := htree.stands cell
    rw [hs.layout] at layout
    cases layout
    obtain ⟨hcovers,ms,rfl,hms⟩ := hs.row stored hbehind behindCell nodes
    have hheld := htree.list_heldAs stored hcovers behindCell (by omega) cell slot
    have hown := hheld.climbs rfl hclimbs
    refine .list behindCell rfl rfl hms.each ?_ hown (fun k m hm => hms.heldAs stored hcovers behindCell cell hm) hown
      hcovers (hleads.snoc (follow_field cell stored (stepTo_covers hcovers behindCell rfl)))
    rw [List.length_append,List.length_singleton]
    omega

theorem Store.Reached.route (h : t.Reached root height keys x) (hdepth : height + 2 ≤ t.depth) :
    routeKeys x t = .ok keys ∧ follow (.list root) (keys.map Key.toValue) t = .ok (some x) := by
  have hroute : t.Climbs keys x → keys.length ≤ 2 * height + 1 → routeKeys x t = .ok keys := by
    intro hclimbs hshort
    have hfuel : 2 * t.depth = (2 * t.depth - keys.length - 2) + keys.length + 2 := by omega
    change keysFrom (2 * t.depth) x [] t = _
    rw [hfuel,hclimbs,List.append_nil]
  have hfollow : ∀ v, t.LeadsTo root keys v → behind v t = .ok x →
      follow (.list root) (keys.map Key.toValue) t = .ok (some x) := by
    intro v hleads hbehind
    have hend := hleads []
    rw [List.append_nil] at hend
    rw [hend]
    change (behind v >>= _) t = _
    rw [Read.bind_known hbehind]
    rfl
  cases h with
  | node tree short climbs leads => exact ⟨hroute climbs (by omega),hfollow _ leads rfl⟩
  | list cell items nodes trees short climbs itemsHeld goesOn covers leads =>
    exact ⟨hroute climbs (by omega),hfollow _ leads (behind_covers covers)⟩

end Document

end Reaching

section Asking
variable {α β : Type} {p : Parser} {t : Store} {keys : List Key} {root : ListId}

theorem call_path (hx : (∃ n c, x = .node n ∧ t.nodes[n.index]? = some c) ∨
      ∃ l lc, x = .list l ∧ t.lists[l.index]? = some lc ∧ lc.flavour = .nodes) (hroute : routeKeys x t = .ok keys) :
    call x "path" (.ofList []) p t = .ok (.route x keys) t := by
  have hanswer : (do return Value.route x (← routeKeys x) : Edit Value) p t = .ok (.route x keys) t := by
    rw [Edit.read_known hroute]
    rfl
  rcases hx with ⟨n,c,rfl,hc⟩ | ⟨l,lc,rfl,hl,hflavour⟩
  · exact (call_node (by decide) hc rfl).trans hanswer
  · exact (call_list (by decide) hl hflavour rfl).trans hanswer

theorem call_to_baron_path (x : Value) :
    call (.route x keys) "to_baron_path" (.ofList []) p t = .ok (.keys keys) t := by
  obtain ⟨fuel,hcall⟩ := call_at (p := p) (t := t) (v := .route x keys) (a := .ofList []) (show "to_baron_path" ≠ "" by decide)
  rw [hcall]
  unfold callAt
  rfl

theorem call_find_by_path (hw : t.views[w.index]? = some vc) (htarget : vc.target = .list root) (hextra : vc.extra = [])
    (hl : t.lists[root.index]? = some lc) (hflavour : lc.flavour = .nodes)
    (hfollow : follow (.list root) (keys.map Key.toValue) t = .ok (some x)) (hroute : routeKeys x t = .ok keys) :
    call (.view w) "find_by_path" (.ofList [.keys keys]) p t = .ok x t := by
  have hway : routeFrom (.list root) (.keys keys) t = .ok (.route x keys) := by
    unfold routeFrom
    change (items (.keys keys) >>= _) t = _
    rw [Read.bind_known (show items (.keys keys) t = .ok (keys.map Key.toValue) from rfl),Read.bind_known hfollow]
    change (routeKeys x >>= _) t = _
    rw [Read.bind_known hroute]
    rfl
  have hown : vc.own? (.ofWord "find_by_path") = none := by
    unfold ViewCell.own?
    rw [hextra]
    rfl
  rw [call_behind (by decide) hw htarget rfl hown hl hflavour rfl]
  change findByWay (.list root) (.keys keys) p t = _
  unfold findByWay
  rw [Edit.read_known hway]
  rfl

theorem Store.Reached.exists_cell {height : Nat} (h : t.Reached root height keys x) :
    (∃ n c, x = .node n ∧ t.nodes[n.index]? = some c) ∨
      ∃ l lc, x = .list l ∧ t.lists[l.index]? = some lc ∧ lc.flavour = .nodes := by
  cases h with
  | @node n i tree =>
    cases i with
    | zero => exact tree.elim
    | succ i =>
      obtain ⟨c,hs⟩ := tree
      exact .inl ⟨n,c,rfl,hs.cell⟩
  | list cell items nodes => exact .inr ⟨_,_,rfl,cell,nodes⟩

/-- The first record of a source has grown into the first node of its document. -/
theorem newDocument_grown {source : String} {s : Store} {fields : List (String × Datum)} {ds : List Datum} {k : Kind}
    (h : newDocument source p s = .ok (.view w) t) (hd : p source = .ok (.list (.record fields :: ds)))
    (hk : kindOf fields = some k) : ∃ root a b n parent place c, behind (.view w) t = .ok (.list root) ∧
      t.Reaches root [.index 0] (.node n) ∧ Grown p t a b n parent place fields k c := by
  obtain ⟨d,w',root,a,b,vs,shown,hd',heq,hkept,-,hlist,hview,-⟩ := newDocument_made h
  cases heq
  cases hd.symm.trans hd'
  obtain ⟨ds,hrow,hds⟩ := hkept.items
  rcases hds with hds | ⟨-,hds | hds⟩ <;> cases hds
  obtain ⟨n,rest,e,rfl,hn,-⟩ := hrow.cons
  obtain ⟨fields,k,c,hfields,hg⟩ := hn.grown
  cases hfields
  cases hk.symm.trans hg.kindOf
  exact ⟨root,_,_,n,_,_,c,behind_view hview rfl,.item .root hlist rfl,hg⟩

/-- The first node of a new document passes a test that all nodes of its kind pass. -/
theorem newDocument_tested (source : String) (q : Parser) (k : Kind) (test : Value → Store → NodeId → Bool)
    (hall : (newDocument source).ensures q .empty (fun v t => (List.range t.nodes.size).all (fun i =>
      (t.nodes[i]?.map (·.kind) != some k) || test v t ⟨i⟩)) = true)
    {fields : List (String × Datum)} {ds : List Datum} (hd : q source = .ok (.list (.record fields :: ds)))
    (hk : kindOf fields = some k) : ∃ w t root n c, newDocument source q .empty = .ok (.view w) t ∧
      behind (.view w) t = .ok (.list root) ∧ t.Reaches root [.index 0] (.node n) ∧ t.nodes[n.index]? = some c ∧ c.kind = k ∧
      test (.view w) t n = true := by
  obtain ⟨v,t,h,hall⟩ := Edit.ensures_iff.mp hall
  obtain ⟨w,_,_,rfl,-⟩ := newDocument_document h
  obtain ⟨root,_,_,n,_,_,c,hbehind,hreach,hg⟩ := newDocument_grown h hd hk
  have hone := List.all_eq_true.mp hall n.index (List.mem_range.mpr (Store.lt_nodes_of_get hg.cell))
  exact ⟨w,t,root,n,c,h,hbehind,hreach,hg.cell,hg.kind,by simpa [hg.cell,hg.kind] using hone⟩

/-- Paths lead back. Wherever keys lead in a new document, the path that climbing finds there consists of
these keys, and the document finds the same node or list by it; so there is no other one with that path. -/
theorem path_find_by_path {source : String} {s : Store} {w : ViewId} (h : newDocument source p s = .ok (.view w) t) :
    ∃ root, behind (.view w) t = .ok (.list root) ∧ ∀ keys x, t.Reaches root keys x →
      call x "path" (.ofList []) p t = .ok (.route x keys) t ∧
      call (.route x keys) "to_baron_path" (.ofList []) p t = .ok (.keys keys) t ∧
      call (.view w) "find_by_path" (.ofList [.keys keys]) p t = .ok x t ∧
      ∀ keys' y, t.Reaches root keys' y → routeKeys y t = .ok keys → y = x := by
  obtain ⟨root,height,hdoc⟩ := newDocument_rooted h
  obtain ⟨vc,hw,-,htarget,-,-,hextra⟩ := hdoc.view
  obtain ⟨ms,hl,-⟩ := hdoc.rows
  refine ⟨root,hdoc.rooted,fun keys x hx => ?_⟩
  have hreached := hdoc.reaches hx
  obtain ⟨hroute,hfollow⟩ := hreached.route hdoc.depth
  refine ⟨call_path hreached.exists_cell hroute,call_to_baron_path x,call_find_by_path hw htarget hextra hl rfl hfollow hroute,?_⟩
  intro keys' y hy hsame
  obtain ⟨hroute',hfollow'⟩ := (hdoc.reaches hy).route hdoc.depth
  rw [hroute'] at hsame
  cases hsame
  rw [hfollow] at hfollow'
  exact (Option.some.inj (Except.ok.inj hfollow')).symm

/-- A loop in one line, as plain data. -/
def loopLine : Datum := .record [("type",.text "while"),("first_formatting",.list [spaceDatum]),
  ("test",nameDatum "a"),("second_formatting",.list []),
  ("third_formatting",.list [spaceDatum]),
  ("value",.list [nameDatum "b",lineEnd ""]),("else",.record [])]

/-- A parser that takes every text for such a loop. -/
def loopParser : Parser := fun _ => .ok (.list [loopLine])

theorem path_find_by_path_loop : ∃ w t root m, newDocument "while a: b\n" loopParser .empty = .ok (.view w) t ∧
    t.Reaches root [.index 0,.name "test"] (.node m) ∧
    call (.view w) "find_by_path" (.ofList [.keys [.index 0,.name "test"]]) loopParser t = .ok (.node m) t := by
  have hrun : (newDocument "while a: b\n").succeeds loopParser .empty = true := by decide +kernel
  obtain ⟨v,t,h⟩ := Edit.succeeds_iff.mp hrun
  obtain ⟨w,_,_,rfl,-⟩ := newDocument_document h
  obtain ⟨root,_,_,n,_,_,c,hbehind,hreach,hg⟩ := newDocument_grown h rfl
    (by decide +kernel : kindOf _ = some .whileLoop)
  have hslot : Slot.field .child .test .always ∈ Kind.layout .whileLoop := by decide
  obtain ⟨d,v,x,y,hd,hv,-,-,hh⟩ := hg.slot (by decide) hslot
  obtain rfl : nameDatum "a" = d := Option.some.inj hd
  obtain ⟨m,-,-,rfl,-⟩ := hh
  have hlayout : c.layout = .ok (Kind.layout .whileLoop) := by
    simp [NodeCell.layout,NodeCell.typeValue,hg.type,hg.kind]
  have hreaches : t.Reaches root [.index 0,.name "test"] (.node m) :=
    .child hreach hg.cell hlayout hslot hv
  obtain ⟨root',hroot,hpaths⟩ := path_find_by_path h
  cases hbehind.symm.trans hroot
  exact ⟨w,t,root,m,h,hreaches,(hpaths _ _ hreaches).2.2.1⟩

end Asking

end CodeTree
