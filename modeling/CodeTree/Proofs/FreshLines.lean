import CodeTree.Proofs.ExpectedLines

/-! # Lines of a new document

The lists of lines in a new document: its own rows, and the blocks and decorators of its nodes. The nodes in them are
nodes of the document, no node is in one twice, and a view shows of them the lines that were found when they had just
been built.
-/
namespace CodeTree
variable {p : Parser} {s t u : Store} {top w : ViewId} {l root : ListId} {form : ViewForm}

section Reaching
variable {n m : NodeId} {c : NodeCell} {height : Nat}

theorem Store.Document.held_below {f : Field} {form : Form} {shown : Shown} {held : Value}
    (h : s.Document top root height) (hn : s.Member top n) (hc : s.nodes[n.index]? = some c)
    (hslot : .field form f shown ∈ c.kind.layout) (hstored : c.stored? (.field f) = some held) :
    ∀ m ∈ s.nodesOf held, m ∈ s.below everywhere n := by
  intro m hm
  have htree := h.member hn
  obtain ⟨i,c',rfl,hc'⟩ := htree.opens
  cases hc.symm.trans hc'.cell
  rw [hc'.below_eq,List.mem_flatMap]
  refine ⟨_,hslot,?_⟩
  obtain ⟨v,hv,hb⟩ := hc'.bears form f shown hslot
  cases hstored.symm.trans hv
  cases hb with
  | datum d =>
    rw [s.nodesOf_ofDatum] at hm
    cases hm
  | empty => cases hm
  | child hangs below => simpa only [Store.hung,hv,Option.elim_some,List.filter_true] using hm
  | row hform => rwa [Store.hung_list hform hv]
  | loose => simpa only [Store.hung,hv,Option.elim_some] using hm

theorem Store.Document.held_member {f : Field} {form : Form} {shown : Shown} {held : Value}
    (h : s.Document top root height) (hn : s.Member top n) (hc : s.nodes[n.index]? = some c)
    (hslot : .field form f shown ∈ c.kind.layout) (hstored : c.stored? (.field f) = some held) :
    ∀ m ∈ s.nodesOf held, s.Member top m := by
  intro m hm
  obtain ⟨r,hr,hd⟩ := hn
  exact ⟨r,hr,.step hd (h.held_below ⟨r,hr,hd⟩ hc hslot hstored m hm)⟩

theorem Store.Document.layout {slots : List Slot} (h : s.Document top root height) (hn : s.Member top n)
    (hc : s.nodes[n.index]? = some c) (hlayout : c.layout = .ok slots) : slots = c.kind.layout := by
  have htree := h.member hn
  obtain ⟨i,c',rfl,hc'⟩ := htree.opens
  cases hc.symm.trans hc'.cell
  unfold NodeCell.layout NodeCell.typeValue at hlayout
  rw [hc'.type] at hlayout
  have hword : (c.kind.word == c.kind.word) = true := beq_iff_eq.mpr rfl
  simp only [Option.getD_some,hword,if_true] at hlayout
  exact (Except.ok.inj hlayout).symm

/-- Keys lead to nodes of the document and to lists of them. -/
theorem Store.Reaches.member (h : s.Document top root height) {keys : List Key} {x : Value} (hx : s.Reaches root keys x) :
    (∀ n, x = .node n → s.Member top n) ∧
      ∀ l lc, x = .list l → s.lists[l.index]? = some lc → ∀ m, .node m ∈ lc.items → s.Member top m := by
  induction hx with
  | root =>
    refine ⟨fun _ h => (by cases h),?_⟩
    rintro l lc hl hlc m hm
    cases hl
    obtain ⟨ms,hms,hcell,-⟩ := h.nodes
    cases hcell.symm.trans hlc
    obtain ⟨m',hm',heq⟩ := List.mem_map.mp hm
    cases heq
    exact ⟨m,hms ▸ hm',.self⟩
  | item above cell member ih =>
    refine ⟨?_,fun _ _ h => (by cases h)⟩
    rintro n hn
    cases hn
    exact ih.2 _ _ rfl cell _ (List.mem_of_getElem? member)
  | child above cell layout slot held ih =>
    refine ⟨?_,fun _ _ h => (by cases h)⟩
    rintro m hm
    cases hm
    have hn := ih.1 _ rfl
    obtain rfl := h.layout hn cell layout
    exact h.held_member hn cell slot held _ (List.mem_singleton_self _)
  | @list _ _ _ _ _ _ _ held _ _ above cell layout slot stored hbehind behindCell nodes ih =>
    refine ⟨fun _ h => (by cases h),?_⟩
    rintro l lc hl hlc m hm
    cases hl
    have hn := ih.1 _ rfl
    obtain rfl := h.layout hn cell layout
    refine h.held_member hn cell slot stored m ?_
    have hrow : ∀ {l'}, s.lists[l'.index]? = some lc → m ∈ s.rowOf l' := by
      intro l' hl'
      simp only [Store.rowOf,hl',Option.elim_some]
      exact List.mem_filterMap.mpr ⟨.node m,hm,rfl⟩
    cases held with
    | list l' =>
      cases hbehind
      exact hrow hlc
    | view w =>
      obtain ⟨vc,hvc,htarget⟩ := Read.bind_ok.mp hbehind
      have htarget : vc.target = .list _ := Read.pure_ok.mp htarget
      simp only [Store.nodesOf,Read.view_ok.mp hvc,Option.map_some,htarget]
      exact hrow hlc
    | _ => cases hbehind

end Reaching

section Rows
variable {vs : List Value} {ds : List Datum} {parent : Value} {place : Attr} {a b : Mark} {leading : Bool}

theorem Grown.truth_end {n : NodeId} {c : NodeCell} {place : Option Attr} {fields : List (String × Datum)}
    (hg : Grown p s a b n parent place fields .endl c) : truth (.node n) s = .ok true := by
  obtain ⟨d,v,x,y,-,hv,-,-,hh⟩ := hg.slot (by decide) (show Slot.field .text .value .always ∈ Kind.endl.layout by decide)
  have hheld : v = Kind.endl.keeps .value (.ofDatum d) := by
    have hnone : respaced .endl fields .value = none := by
      cases hr : respaced .endl fields .value with
      | none => rfl
      | some present =>
        rcases respaced_cases hr with ⟨h,-⟩ | ⟨h | h,-⟩ <;> cases h
    rw [Slotted,hnone] at hh
    exact hh
  obtain ⟨e,he⟩ := Kind.endl.keeps_ofDatum .value d
  have hlook : look n (.field .value) s = .ok (.ofDatum e) := he ▸ hheld ▸ look_stored hg.cell hv
  have hlength : lengthWith look n s = .ok 1 := by
    obtain ⟨x,hx,rfl⟩ := (Read.Returns.of_ok hlook rfl : (look n (.field .value)).Returns s (· = .ofDatum e)).orElse
      (d := pure .none)
    unfold lengthWith
    rw [Read.bind_known hx]
    cases e <;> rfl
  change (do return (← lengthWith look n) != 0 : Read Bool) s = .ok true
  rw [Read.bind_known hlength]
  rfl

theorem Kept.told (hu : Kept (buildEach ds parent (some place)) p a b vs u)
    (hs : Kept (buildEach ds parent (some place)) p a b vs s) : ∀ x ∈ vs, u.Told s.blank x := by
  intro x hx
  obtain ⟨k,type,hgoes,hgoes'⟩ := hu.types hs x hx
  have hblank : s.blank x = type.reads "endl" := by
    rw [Store.blank,hgoes'.sepKey]
    cases type.reads "endl" <;> rfl
  obtain ⟨n,c,rfl,hc,hkind,htype⟩ := id hgoes
  refine ⟨rfl,by rw [hblank]; exact hgoes.hasType,fun hend => ?_⟩
  obtain ⟨i,hi⟩ := List.getElem?_of_mem hx
  obtain ⟨d,_,_,-,hn,-⟩ := hu.member hi
  obtain ⟨fields,k',c',rfl,hg⟩ := hn.grown
  cases hc.symm.trans hg.cell
  cases htype.symm.trans hg.type
  have hword : (k'.word == "endl") = true := hblank.symm.trans hend
  rw [word_endl] at hword
  cases beq_iff_eq.mp hword
  exact hg.truth_end

theorem Kept.shown (hu : Kept (buildEach ds parent (some place)) p a b vs u)
    (hs : Kept (buildEach ds parent (some place)) p a b vs s) {shown : List Value}
    (h : lineItems leading .none vs u = .ok shown) :
    vs.Nodup ∧ shown = shownLines s.blank leading none vs := by
  obtain ⟨ms,rfl,hms,-⟩ := hs.siblings (fun d _ => built_tree d) (Nat.zero_le _) (Nat.le_add_left b.nodes a.nodes)
  refine ⟨hms.nodup.map (fun _ _ heq => by cases heq; rfl),?_⟩
  have hprevious : ∀ q ∈ (none : Option Value), u.Told s.blank q := fun _ hq => by cases hq
  exact lineItems_shown (hu.told hs) hprevious h

/-- The lines of a document, or of a block or the decorators of a node that keys lead to in it, with the list behind
them. -/
inductive Store.LinesIn (s : Store) (top : ViewId) : ViewId → ListId → ViewForm → Prop where
  | document {root : ListId} (behind : behind (.view top) s = .ok (.list root)) : Store.LinesIn s top top root .document
  | field {root : ListId} {keys : List Key} {n : NodeId} {c : NodeCell} {f : Field} {w : ViewId} {l : ListId} {form : ViewForm}
    (rooted : behind (.view top) s = .ok (.list root)) (above : s.Reaches root keys (.node n))
    (cell : s.nodes[n.index]? = some c) (through : c.kind.viewForm f = some form) (lines : form = .lines ∨ form = .decorators)
    (stored : c.stored? (.field f) = some (.view w)) (behind : behind (.view w) s = .ok (.list l)) :
    Store.LinesIn s top w l form

/-- A list of lines of a new document, and what the view of it shows. -/
structure Store.FreshRow (s : Store) (top w : ViewId) (l : ListId) (form : ViewForm) (L : List Value) : Prop where
  row : s.Row top l w form
  items : s.HasItems l .nodes L
  members : ∀ x ∈ L, ∃ m, x = .node m ∧ s.Member top m
  nodup : L.Nodup
  shown : s.ShowsItems w (shownLines s.blank (form == .document) none L)

theorem newDocument_row {source : String} {s₀ : Store} (h : newDocument source p s₀ = .ok (.view top) s)
    (hlines : s.LinesIn top w l form) : ∃ root height L, s.Document top root height ∧ s.FreshRow top w l form L := by
  obtain ⟨root,height,hdoc⟩ := newDocument_rooted h
  obtain ⟨rc,hrc,-,htarget,-,-,hextra⟩ := hdoc.view
  have hrooted : behind (.view top) s = .ok (.list root) := hdoc.rooted
  have hnodes : ∀ {ms : List NodeId} {m : Value}, m ∈ ms.map Value.node → ∃ n, m = .node n ∧ .node n ∈ ms.map Value.node := by
    intro ms m hm
    obtain ⟨n,hn,rfl⟩ := List.mem_map.mp hm
    exact ⟨n,rfl,List.mem_map_of_mem hn⟩
  cases hlines with
  | document hbehind =>
    cases hbehind.symm.trans hrooted
    obtain ⟨d,top',root',a,b,vs,shown,-,heq,hkept,-,hlist,hview,-,u,hlines,hagree⟩ := newDocument_made h
    cases heq
    cases hrc.symm.trans hview
    cases htarget
    obtain ⟨ds,hrow,-⟩ := hkept.items
    obtain ⟨hnodup,hshown⟩ := (hrow.agree hagree.symm).shown hrow hlines
    obtain ⟨ms,rfl,-⟩ := hrow.siblings (fun d _ => built_tree d) (Nat.zero_le _) (Nat.le_add_left b.nodes a.nodes)
    refine ⟨_,height,_,hdoc,.document hview rfl rfl,⟨_,hlist,rfl,rfl⟩,fun x hx => ?_,hnodup,⟨_,hview,hshown⟩⟩
    obtain ⟨m,rfl,hm⟩ := hnodes hx
    exact ⟨m,rfl,(Store.Reaches.member hdoc .root).2 _ _ rfl hlist m hm⟩
  | @field root' keys n c f _ _ _ rooted above cell through lines stored hbehind =>
    cases rooted.symm.trans hrooted
    obtain ⟨_,_,_,_,_,hg,-⟩ := newDocument_planted h rooted above cell
    have hmember := (above.member hdoc).1 n rfl
    have hbased : form.lineBased = true := by rcases lines with rfl | rfl <;> rfl
    have hleading : (form == .document) = false := by rcases lines with rfl | rfl <;> rfl
    obtain ⟨l',vs,shown,style,ds,x,e,u,hcell,hlist,hrow,hrow',hlines⟩ := hg.view_lines stored through hbased
    cases hbehind.symm.trans (behind_view hcell rfl)
    obtain ⟨hnodup,hshown⟩ := hrow'.shown hrow hlines
    obtain ⟨ms,rfl,-⟩ := hrow.siblings (fun d _ => built_tree d) (Nat.zero_le _) (Nat.le_add_left e.nodes x.nodes)
    have hheld : Held s w l n f c.kind form :=
      ⟨⟨_,hcell,rfl,rfl,rfl⟩,⟨_,hlist,rfl,rfl,rfl⟩,⟨c,cell,rfl⟩,through⟩
    refine ⟨_,height,_,hdoc,.field hmember hheld lines hcell ⟨rfl,rfl⟩,⟨_,hlist,rfl,rfl⟩,fun y hy => ?_,hnodup,
      ⟨_,hcell,by rw [hleading]; exact hshown⟩⟩
    obtain ⟨m,hm,rfl⟩ := List.mem_map.mp hy
    obtain ⟨slotForm,slotShown,hslot⟩ := mem_slotFields (hg.slot_of_view stored)
    refine ⟨m,rfl,hdoc.held_member hmember cell hslot stored m ?_⟩
    rw [Store.nodesOf_covers (.inr ⟨w,_,rfl,hcell,rfl,rfl⟩),Store.rowOf_eq hlist rfl]
    exact hm

end Rows

end CodeTree
