import CodeTree.Proofs.Changes
import CodeTree.Proofs.Commas

/-! # Items behind dots

A list of items with dots between them stays in step with its view, whatever is done to the view. Dots
in front of the first item are no separators and stay, and a call or a subscript follows without a dot.
-/
namespace CodeTree
variable {p : Parser} {s t : Store} {F : Freedom} {K : Store → Prop} {change : Change} {L vs : List Value} {fuel lead : Nat}
  {u : Store} {r : Unit} {joins' q : Value → Bool}

section Keys
variable {D D' : List Value} {joins : Value → Bool}

/-- The keys of items that follow another one: a dot before each that does not join. -/
def chainedAfter (joins : Value → Bool) : List Value → List (Option Value)
  | [] => []
  | x :: D => if joins x then some x :: chainedAfter joins D else none :: some x :: chainedAfter joins D

/-- The keys of items with dots between them. -/
def chained (joins : Value → Bool) : List Value → List (Option Value)
  | [] => []
  | x :: D => some x :: chainedAfter joins D

theorem chainedAfter_congr (h : ∀ x ∈ D, joins' x = joins x) : chainedAfter joins' D = chainedAfter joins D := by
  induction D with
  | nil => rfl
  | cons x D ih =>
    rw [chainedAfter,chainedAfter,h x List.mem_cons_self,ih (List.forall_mem_cons.mp h).2]

theorem chained_congr (h : ∀ x ∈ D, joins' x = joins x) : chained joins' D = chained joins D := by
  cases D with
  | nil => rfl
  | cons x D => rw [chained,chained,chainedAfter_congr (List.forall_mem_cons.mp h).2]

theorem cons_sublist_chainedAfter (joins : Value → Bool) (x : Value) (D : List Value) :
    (some x :: chainedAfter joins D).Sublist (chainedAfter joins (x :: D)) := by
  rw [chainedAfter]
  split
  · exact List.Sublist.refl _
  · exact List.sublist_cons_self _ _

theorem chainedAfter_sublist (h : D.Sublist D') : (chainedAfter joins D).Sublist (chainedAfter joins D') := by
  induction h with
  | slnil => exact List.Sublist.refl _
  | @cons D D' y _ ih => exact (ih.cons (some y)).trans (cons_sublist_chainedAfter joins y D')
  | @cons_cons D D' x _ ih =>
    simp only [chainedAfter]
    split
    · exact ih.cons_cons _
    · exact (ih.cons_cons _).cons_cons _

theorem chained_sublist (h : D.Sublist D') : (chained joins D).Sublist (chained joins D') := by
  cases h with
  | slnil => exact List.Sublist.refl _
  | @cons D D' y h =>
    cases D with
    | nil => exact List.nil_sublist _
    | cons x D =>
      have hfirst := (cons_sublist_chainedAfter joins x D).trans (chainedAfter_sublist h)
      exact hfirst.cons (some y)
  | @cons_cons D D' x h => exact (chainedAfter_sublist h).cons_cons _

/-- Items that follow another one. -/
inductive ChainAfter (dot item : Value → Prop) (joins : Value → Bool) : List Value → List Value → Prop
  | nil : ChainAfter dot item joins [] []
  | joined {x : Value} {L D : List Value} :
    item x → joins x = true → ChainAfter dot item joins L D → ChainAfter dot item joins (x :: L) (x :: D)
  | dotted {d x : Value} {L D : List Value} :
    dot d → item x → joins x = false → ChainAfter dot item joins L D → ChainAfter dot item joins (d :: x :: L) (x :: D)

/-- Items with one dot between any two of them, but none before an item that joins. -/
inductive Chain (dot item : Value → Prop) (joins : Value → Bool) : List Value → List Value → Prop
  | nil : Chain dot item joins [] []
  | cons {x : Value} {L D : List Value} : item x → ChainAfter dot item joins L D → Chain dot item joins (x :: L) (x :: D)

variable {dot item : Value → Prop} {key : Value → Option Value} {L : List Value}

theorem ChainAfter.keys (h : ChainAfter dot item joins L D) (hdot : ∀ d, dot d → key d = none)
    (hitem : ∀ x, item x → key x = some x) : L.map key = chainedAfter joins D := by
  induction h with
  | nil => rfl
  | joined hx hjoins _ ih => rw [List.map_cons,hitem _ hx,ih,chainedAfter,if_pos hjoins]
  | dotted hd hx hjoins _ ih =>
    rw [List.map_cons,List.map_cons,hdot _ hd,hitem _ hx,ih,chainedAfter,if_neg (by simp [hjoins])]

theorem Chain.keys (h : Chain dot item joins L D) (hdot : ∀ d, dot d → key d = none)
    (hitem : ∀ x, item x → key x = some x) : L.map key = chained joins D := by
  cases h with
  | nil => rfl
  | cons hx hrest => rw [List.map_cons,hitem _ hx,hrest.keys hdot hitem,chained]

theorem chainAfter_of_keys (hkeys : L.map key = chainedAfter joins D)
    (hL : ∀ x ∈ L, (dot x ∧ key x = none) ∨ (item x ∧ key x = some x)) : ChainAfter dot item joins L D := by
  induction D generalizing L with
  | nil =>
    rw [List.map_eq_nil_iff.mp hkeys]
    exact .nil
  | cons x D ih =>
    rw [chainedAfter] at hkeys
    split at hkeys
    · next hjoins =>
      obtain ⟨a,rest,rfl,ha,hrest⟩ := List.map_eq_cons_iff.mp hkeys
      obtain ⟨hi,rfl⟩ := item_of_key hL List.mem_cons_self ha
      exact .joined hi hjoins (ih hrest (fun x hx => hL x (by simp [hx])))
    · next hjoins =>
      obtain ⟨d,more,rfl,hd,hmore⟩ := List.map_eq_cons_iff.mp hkeys
      obtain ⟨a,rest,rfl,ha,hrest⟩ := List.map_eq_cons_iff.mp hmore
      obtain ⟨hi,rfl⟩ := item_of_key hL (by simp) ha
      have hdot := sep_of_key hL List.mem_cons_self hd
      exact .dotted hdot hi (by simpa using hjoins) (ih hrest (fun x hx => hL x (by simp [hx])))

theorem chain_of_keys (hkeys : L.map key = chained joins D)
    (hL : ∀ x ∈ L, (dot x ∧ key x = none) ∨ (item x ∧ key x = some x)) : Chain dot item joins L D := by
  cases D with
  | nil =>
    rw [List.map_eq_nil_iff.mp hkeys]
    exact .nil
  | cons x D =>
    obtain ⟨a,rest,rfl,ha,hrest⟩ := List.map_eq_cons_iff.mp hkeys
    obtain ⟨hi,rfl⟩ := item_of_key hL List.mem_cons_self ha
    exact .cons hi (chainAfter_of_keys hrest (fun x hx => hL x (by simp [hx])))

theorem head_of_prefix (hkeys : L.map key <+: chained joins D)
    (hL : ∀ x ∈ L, (dot x ∧ key x = none) ∨ (item x ∧ key x = some x)) : ∀ x ∈ L.head?, item x := by
  cases L with
  | nil => simp
  | cons a L =>
    intro x hx
    obtain rfl : a = x := Option.some.inj hx
    cases D with
    | nil => simp [chained] at hkeys
    | cons y D =>
      rw [List.map_cons,chained,List.cons_prefix_cons] at hkeys
      exact (item_of_key hL List.mem_cons_self hkeys.1).1

theorem ChainAfter.mem (h : ChainAfter dot item joins L D) : (∀ x ∈ L, dot x ∨ item x) ∧ ∀ x ∈ D, item x := by
  induction h with
  | nil => simp
  | joined hx _ _ ih => simpa [hx] using ih
  | dotted hd hx _ _ ih => simpa [hd,hx] using ih

theorem Chain.mem (h : Chain dot item joins L D) : (∀ x ∈ L, dot x ∨ item x) ∧ ∀ x ∈ D, item x := by
  cases h with
  | nil => simp
  | cons hx hrest => simpa [hx] using hrest.mem

section Imp
variable {dot' item' : Value → Prop} {joins' : Value → Bool} (hdot : ∀ d, dot d → dot' d)
  (hitem : ∀ x, item x → item' x)
include hdot hitem

theorem ChainAfter.imp (h : ChainAfter dot item joins L D) (hjoins : ∀ x ∈ D, joins' x = joins x) :
    ChainAfter dot' item' joins' L D := by
  induction h with
  | nil => exact .nil
  | joined hx hj _ ih =>
    have hj' := (hjoins _ List.mem_cons_self).trans hj
    exact .joined (hitem _ hx) hj' (ih (List.forall_mem_cons.mp hjoins).2)
  | dotted hd hx hj _ ih =>
    have hj' := (hjoins _ List.mem_cons_self).trans hj
    exact .dotted (hdot _ hd) (hitem _ hx) hj' (ih (List.forall_mem_cons.mp hjoins).2)

theorem Chain.imp (h : Chain dot item joins L D) (hjoins : ∀ x ∈ D, joins' x = joins x) :
    Chain dot' item' joins' L D := by
  cases h with
  | nil => exact .nil
  | cons hx hrest =>
    exact .cons (hitem _ hx) (hrest.imp hdot hitem (List.forall_mem_cons.mp hjoins).2)

end Imp

theorem Chain.head (h : Chain dot item joins L D) : ∀ x ∈ L.head?, item x := by
  cases h with
  | nil => simp
  | cons hx _ => simpa using hx

theorem ChainAfter.countP_eq (h : ChainAfter dot item joins L D) (hq : ∀ d, dot d → q d = false) :
    L.countP q = D.countP q := by
  induction h with
  | nil => rfl
  | joined _ _ _ ih => rw [List.countP_cons,List.countP_cons,ih]
  | dotted hd _ _ _ ih => rw [List.countP_cons,List.countP_cons,List.countP_cons,ih,hq _ hd]; simp

theorem Chain.countP_eq (h : Chain dot item joins L D) (hq : ∀ d, dot d → q d = false) : L.countP q = D.countP q := by
  cases h with
  | nil => rfl
  | cons _ hrest => rw [List.countP_cons,List.countP_cons,hrest.countP_eq hq]

end Keys

section Types
variable {v : Value}

/-- A node of the type of dots. -/
def Store.Dot (s : Store) (v : Value) : Prop := ∃ k, s.Goes v k (.text "dot")

/-- Whether a node is of a type that follows without a dot. -/
def Store.joins (s : Store) (v : Value) : Bool :=
  match typeOf v s with
  | .ok (.text type) => type == "call" || type == "getitem"
  | _ => false

theorem Store.Dot.frame (h : s.Dot v) (hF : s.Frame F t) (ht : F.KeepsTypes) : t.Dot v := by
  obtain ⟨k,h⟩ := h
  exact ⟨k,h.frame hF ht⟩

theorem Store.Dot.key (h : s.Dot v) : sepKey "dot" s v = none := by
  obtain ⟨k,h⟩ := h
  exact sepKey_eq_none h

theorem Store.joins_frame (h : s.Typed v) (hF : s.Frame F t) (ht : F.KeepsTypes) :
    t.joins v = s.joins v := by
  obtain ⟨k,type,h⟩ := h
  unfold joins
  rw [h.typeOf,(h.frame hF ht).typeOf]

/-- What a list of items behind dots consists of. -/
def Store.Links (s : Store) (v : Value) : Prop := s.Dot v ∨ s.Item "dot" v

theorem Store.Links.frame (h : s.Links v) (hF : s.Frame F t) (ht : F.KeepsTypes) : t.Links v :=
  h.imp (fun h => h.frame hF ht) (fun h => h.frame hF ht)

theorem Store.Links.typed (h : s.Links v) : s.Typed v := by
  rcases h with ⟨k,h⟩ | h
  · exact ⟨k,_,h⟩
  · exact h.typed

theorem Store.Links.key (h : s.Links v) :
    (s.Dot v ∧ sepKey "dot" s v = none) ∨ (s.Item "dot" v ∧ sepKey "dot" s v = some v) :=
  h.imp (fun h => ⟨h,h.key⟩) (fun h => ⟨h,h.sepKey⟩)

theorem Chain.frame {D : List Value} (h : Chain s.Dot (s.Item "dot") s.joins L D) (hF : s.Frame F t)
    (ht : F.KeepsTypes) : Chain t.Dot (t.Item "dot") t.joins L D :=
  h.imp (fun _ hd => hd.frame hF ht) (fun _ hx => hx.frame hF ht)
    (fun x hx => Store.joins_frame (h.mem.2 x hx).typed hF ht)

theorem ofWord_dot : Kind.ofWord? "dot" = some .dot := by decide +kernel

theorem separating_dot : Separating "dot" := by
  intro k hk
  rw [ofWord_dot] at hk
  cases hk
  rfl

theorem Kept.dot {a b : Mark} {n : NodeId} {parent : Value} {place : Option Attr}
    (h : Kept (build dotDatum parent place) p a b n t) : t.Dot (.node n) := by
  obtain ⟨fields,k,c,hd,hg⟩ := h.grown
  cases hd
  obtain rfl := hg.kind_eq (by rfl) ofWord_dot
  exact ⟨.dot,n,c,rfl,hg.cell,hg.kind,hg.type⟩

end Types

section Expected
variable {separator : Edit Value} {joins : Value → Bool} {D : List Value} (ht : F.KeepsTypes)
  (hseparator : Gives F K (fun v s => s.Dot v) separator)
  (hD : ∀ s, K s → ∀ x ∈ D, s.Item "dot" x ∧ s.joins x = joins x)
include ht hseparator hD

/-- What is expected for items that follow others: what is done already ends in a dot, which is taken away
again before an item that joins. -/
theorem dottedItems_after (done : List Value) (d : Value) :
    Gives F (fun s => K s ∧ s.Dot d) (fun es s => ∃ L e, es = done ++ L ++ [e] ∧ ChainAfter s.Dot (s.Item "dot") joins L D)
      (dottedItems separator (done ++ [d]) D) := by
  induction D generalizing done d with
  | nil => exact .pure (fun s hs => ⟨[],d,by simp,.nil⟩)
  | cons x D ih =>
    have hdot : ∀ d, Stable F (fun s => s.Dot d) := fun d s t hs hF => hs.frame hF ht
    have hx : Stable F (fun s => s.Item "dot" x) := fun s t hs hF => hs.frame hF ht
    have hitem : ∀ s, K s → s.Item "dot" x := fun s hs => (hD s hs x List.mem_cons_self).1
    have hrest := ih (fun s hs y hy => hD s hs y (List.mem_cons_of_mem _ hy))
    have hgo : Gives F (fun s => K s ∧ s.Dot d)
        (fun es s => ∃ L e, es = done ++ L ++ [e] ∧ ChainAfter s.Dot (s.Item "dot") joins L (x :: D)) (do
          let e ← separator
          dottedItems separator ((if joins x then (done ++ [d]).dropLast else done ++ [d]) ++ [x,e]) D) := by
      refine .bind (hseparator.and (hdot d)) (fun e => ?_)
      cases hj : joins x with
      | true =>
        rw [if_pos rfl,List.dropLast_concat,List.append_cons]
        refine Edit.Meets.weaken ((hrest (done ++ [x]) e).and (hdot d)) (fun s hs => ⟨⟨hs.1.1,hs.2⟩,hs.1.2⟩) ?_
        rintro es s ⟨⟨⟨hs,he⟩,hd⟩,L,e',rfl,hL⟩
        exact ⟨⟨⟨hs,hd⟩,he⟩,x :: L,e',by simp,.joined (hitem s hs) hj hL⟩
      | false =>
        rw [if_neg (by simp),List.append_cons]
        refine Edit.Meets.weaken ((hrest (done ++ [d] ++ [x]) e).and (hdot d)) (fun s hs => ⟨⟨hs.1.1,hs.2⟩,hs.1.2⟩) ?_
        rintro es s ⟨⟨⟨hs,he⟩,hd⟩,L,e',rfl,hL⟩
        exact ⟨⟨⟨hs,hd⟩,he⟩,d :: x :: L,e',by simp,.dotted hd (hitem s hs) hj hL⟩
    unfold dottedItems
    rw [if_neg (by simp)]
    refine .ask (fun s type hs htype => ?_)
    obtain ⟨-,hjoins⟩ := hD s hs.1 x List.mem_cons_self
    unfold Store.joins at hjoins
    rw [htype] at hjoins
    cases type <;> simp only [pure_bind] <;> simp only at hjoins <;> rw [hjoins] <;> exact hgo

theorem dottedItems_gives :
    Gives F K (fun es s => Chain s.Dot (s.Item "dot") joins es.dropLast D) (dottedItems separator [] D) := by
  cases D with
  | nil => exact .pure (fun s hs => .nil)
  | cons x D =>
    have hafter := dottedItems_after ht hseparator (fun s hs y hy => hD s hs y (List.mem_cons_of_mem _ hy)) [x]
    unfold dottedItems
    simp only [List.isEmpty_nil,if_true,pure_bind,Bool.false_eq_true,if_false,List.nil_append]
    refine .bind hseparator (fun e => .weaken (hafter e) ?_)
    rintro es s hs ⟨L,e',rfl,hL⟩
    rw [List.dropLast_concat]
    exact .cons (hD s hs.1 x List.mem_cons_self).1 hL

end Expected

section Settled
variable {dots L : List Value}

theorem leadingDots_ok (hdots : ∀ d ∈ dots, s.Dot d) (hL : ∀ x ∈ L.head?, s.Item "dot" x) :
    leadingDots (dots ++ L) s = .ok dots.length := by
  induction dots with
  | nil =>
    cases L with
    | nil => rfl
    | cons x L =>
      obtain ⟨k,type,hgoes,hne⟩ := hL x rfl
      have hfalse : type.reads "dot" = false := by
        rw [Bool.eq_false_iff]
        exact fun h => hne (Value.reads_iff.mp h)
      simp only [List.nil_append,leadingDots,Read.bind_ok]
      refine ⟨_,hgoes.hasType,?_⟩
      rw [hfalse]
      rfl
  | cons d dots ih =>
    obtain ⟨k,hgoes⟩ := hdots d List.mem_cons_self
    simp only [List.cons_append,leadingDots,Read.bind_ok]
    refine ⟨_,hgoes.hasType,?_⟩
    rw [Value.reads_iff.mpr rfl,if_pos rfl]
    simp only [Read.bind_ok,Read.pure_ok]
    exact ⟨_,ih (List.forall_mem_cons.mp hdots).2,rfl⟩

end Settled

theorem dottedPlaces {k : Kind} {f : Field} (h : k.viewForm f = some .dotted) :
    (k,f) ∈ [(Kind.atomTrailers,Field.value), (.dottedAsName,.value), (.fromImport,.value)] := by
  unfold Kind.viewForm at h
  split at h
  · cases h
  · split at h
    · cases h
    · split at h <;> first | decide | cases h

section Holding
variable {w : ViewId} {l : ListId} {n : NodeId} {f : Field} {k : Kind} {D : List Value}

section Gives
variable (hK : Stable F K) (ht : F.KeepsTypes) (hheld : ∀ s, K s → Held s w l n f k .dotted)
include hK hheld

theorem listOfText_dotted {Q : ListId → Store → Prop} {parent : Value}
    (hlist : ∀ d p s l t, buildList d parent (some (.field f)) p s = .ok l t → Q l t) (hthrough : k.viewForm f = some .dotted)
    (text : String) : Gives F K Q (listOfText n text parent (some (.field f))) := by
  have hctx : ∀ ctx : Context, Gives F K Q (do buildList (← ctx.parse text) parent (some (.field f))) :=
    fun ctx => parsed_gives hK hlist (.parseWithin _ _ _ _)
  unfold listOfText
  refine .ask (fun s c hs hc => ?_)
  obtain ⟨c',hc',hkind⟩ := (hheld s hs).kind
  cases (Read.node_ok.mp hc).symm.trans hc'
  rw [hkind]
  have hplace := dottedPlaces hthrough
  simp only [List.mem_cons,Prod.mk.injEq,List.not_mem_nil,or_false] at hplace
  rcases hplace with ⟨rfl,rfl⟩ | ⟨rfl,rfl⟩ | ⟨rfl,rfl⟩ <;> exact hctx _

theorem itemFrom_dotted (hthrough : k.viewForm f = some .dotted) (text : String) :
    Gives F K (fun x s => s.Item "dot" x) (itemFrom w (.text text)) := by
  unfold itemFrom
  refine .ask (fun s c hs hc => ?_)
  obtain ⟨hform,htarget,hplace⟩ := (hheld s hs).seen hc
  rw [hform]
  simp only [pure_bind]
  refine .ask (fun s holder hs hholder => ?_)
  obtain rfl := (hheld s hs).holder_eq htarget hholder
  rw [htarget,hplace]
  have hlist : ∀ text : String, Gives F K (fun v s => s.Parts "dot" v)
      (listFor (.node n) (.text text) (.list l) (some (.field f))) := fun text =>
    .bind (listOfText_dotted hK hheld (fun _ _ _ _ _ h => buildList_tellers separating_dot h) hthrough text)
      (fun l => .pure (fun s hs => parts_underlying (underlying_list l s) hs.2))
  refine .bind (hlist _) (fun v => .learn (R := fun xs s => ∀ x ∈ xs, s.Item "dot" x) (fun xs s hs hxs => hs.2 xs hxs) ?_)
  intro xs
  cases hlast : xs.getLast? with
  | none => exact .throw _
  | some x => exact .pure (fun s hs => hs.2 x (List.mem_of_getLast? hlast))

include ht in
theorem expectedItems_dotted {joins : Value → Bool} (hshown : ∀ s, K s → s.ShowsItems w D)
    (hD : ∀ s, K s → ∀ x ∈ D, s.Item "dot" x ∧ s.joins x = joins x) :
    Gives F K (fun es s => Chain s.Dot (s.Item "dot") joins es D) (expectedItems w) := by
  unfold expectedItems
  refine .ask (fun s c hs hc => ?_)
  obtain ⟨hform,-⟩ := (hheld s hs).seen hc
  obtain ⟨d,hd,rfl⟩ := hshown s hs
  cases (Read.view_ok.mp hc).symm.trans hd
  dsimp only
  rw [hform]
  have hseparator : Gives F K (fun v s => s.Dot v) (newSeparator c dotDatum) :=
    newSeparator_gives (P := fun s v => s.Dot v) hK c (fun p s n t hs h => (Kept.of_run h).dot)
  exact .bind (dottedItems_gives ht hseparator hD) (fun es => .pure (fun s hs => hs.2))

end Gives

theorem dottedItems_within {separator : Edit Value} (h : Within F separator) (done D : List Value) :
    Within F (dottedItems separator done D) := by
  induction D generalizing done with
  | nil => exact .pure _
  | cons x D ih =>
    have hgo : ∀ before : List Value, Within F (do
        let e ← separator
        dottedItems separator (before ++ [x,e]) D) := fun before => .bind h (fun e => ih _)
    unfold dottedItems
    split
    · exact .bind (.pure _) (fun joined => hgo _)
    · refine .bind (.read _) (fun type => ?_)
      split <;> exact .bind (.pure _) (fun joined => hgo _)

theorem expectedItems_held : Gives F (fun s => Held s w l n f k .dotted) (fun _ _ => True) (expectedItems w) := by
  unfold expectedItems
  refine .ask (fun s c hs hc => ?_)
  obtain ⟨hform,-⟩ := hs.seen hc
  rw [hform]
  have hseparator : Within F (newSeparator c dotDatum) := .bind (.of_adds (build_adds _ _ _)) (fun _ => .pure _)
  exact .of_within stable_held (.bind (dottedItems_within hseparator [] c.items) (fun _ => .pure _))
    (fun _ _ _ _ _ _ => trivial)

theorem alignSeparators_dotted (pairs : List (Value × Value)) : Within F (alignSeparators .dotted pairs) := by
  induction pairs with
  | nil => exact .pure _
  | cons q pairs ih => exact .bind (.pure _) (fun _ => ih)

/-- One pass over a list of items behind dots. -/
structure DotsPassed (w : ViewId) (l : ListId) (D dots L : List Value) (dir : Direction) (s t : Store)
    (E : List Value) (plan : Plan Value) : Prop extends Passed (sepKey "dot" t) w l dots L dir s t E plan where
  shown : t.ShowsItems w D
  belong : ∀ x ∈ plan.result, t.Links x
  expected : E.map (sepKey "dot" t) = chained t.joins D

theorem expectedItems_chain (hheld : Held s w l n f k .dotted) (hshown : s.ShowsItems w D)
    (hD : ∀ x ∈ D, s.Item "dot" x) {es : List Value} (hes : expectedItems w p s = .ok es t) :
    s.Frame .attributes t ∧ Chain t.Dot (t.Item "dot") t.joins es D := by
  have htype := Freedom.type_kept
  have hK : Stable .attributes (fun u => Held u w l n f k .dotted ∧ u.ShowsItems w D ∧
      ∀ x ∈ D, u.Item "dot" x ∧ u.joins x = s.joins x) := by
    refine stable_held.and ((stable_showsItems (F := .attributes) id D).and (fun u v hu hF x hx => ?_))
    obtain ⟨hitem,hjoins⟩ := hu x hx
    exact ⟨hitem.frame hF htype,(Store.joins_frame hitem.typed hF htype).trans hjoins⟩
  have hexpected := expectedItems_dotted hK htype (fun u hu => hu.1) (fun u hu => hu.2.1) (fun u hu => hu.2.2)
  obtain ⟨hF,-,hes⟩ := Edit.Meets.frame_ok hexpected ⟨hheld,hshown,fun x hx => ⟨hD x hx,rfl⟩⟩ hes
  exact ⟨hF,hes.imp (fun _ h => h) (fun _ h => h) (fun x hx => Store.joins_frame (hD x hx).typed hF htype)⟩

theorem bringInStep_dots {dir : Direction} {dots : List Value} (hheld : Held s w l n f k .dotted) (hshown : s.ShowsItems w D)
    (hlist : s.HasItems l .nodes (dots ++ L)) (hdots : ∀ d ∈ dots, s.Dot d) (hL : ∀ x ∈ L, s.Links x)
    (hhead : ∀ x ∈ L.head?, s.Item "dot" x) (hD : ∀ x ∈ D, s.Item "dot" x) (h : bringInStep fuel dir w p s = .ok r t) :
    ∃ E plan, DotsPassed w l D dots L dir s t E plan := by
  have htype := Freedom.type_kept
  have hchain : ∀ {es u}, expectedItems w p s = .ok es u →
      s.Frame .attributes u ∧ Chain u.Dot (u.Item "dot") u.joins es D := expectedItems_chain hheld hshown hD
  have hsettled : ∀ u, s.Frame .attributes u → settledItems .dotted (dots ++ L) u = .ok dots.length :=
    fun u hF => leadingDots_ok (fun d hd => (hdots d hd).frame hF htype) (fun x hx => (hhead x hx).frame hF htype)
  obtain ⟨E,u,plan,hes,hpassed,-,haligned⟩ := bringInStep_passed hlist (fun x hx => (hL x hx).typed)
    (fun es u hes => ⟨(hchain hes).1,fun e he => Store.Links.typed ((hchain hes).2.mem.1 e he)⟩) hsettled
    alignSeparators_dotted h rfl hheld.target
  obtain ⟨hF,hE⟩ := hchain hes
  have hstays := (Edit.Meets.frame_ok (alignSeparators_dotted (F := .attributes) plan.pairs) trivial haligned).1
  have hF' : u.Frame (.editing w l) t :=
    (Store.frame_holding rfl (dots ++ plan.result)).trans (hstays.mono (Freedom.attributes_le w l))
  have htype' := Freedom.editing_type w l
  have hshown' : (u.holding l (dots ++ plan.result)).ShowsItems w D :=
    (hshown.frame hF id :)
  refine ⟨E,plan,hpassed,?_,?_,?_⟩
  · exact hshown'.frame hstays id
  · intro x hx
    rcases hpassed.origin x hx with hx | hx
    · exact (hL x hx).frame hpassed.frame htype'
    · exact Store.Links.frame (hE.mem.1 x hx) hF' htype'
  · exact (hE.frame hF' htype').keys (fun d hd => hd.key) (fun x hx => hx.sepKey)

end Holding

/-- Some dots, and then items with dots between them. -/
def WellDotted (s : Store) (lead : Nat) (L D : List Value) : Prop :=
  ∃ dots rest, L = dots ++ rest ∧ dots.length = lead ∧ (∀ d ∈ dots, s.Dot d) ∧
    Chain s.Dot (s.Item "dot") s.joins rest D

/-- A view of items behind dots that is in step with the list behind it. -/
structure InLine (s : Store) (w : ViewId) (l : ListId) (n : NodeId) (f : Field) (k : Kind) (lead : Nat)
    (D L : List Value) : Prop where
  held : Held s w l n f k .dotted
  shown : s.ShowsItems w D
  behind : s.HasItems l .nodes L
  dotted : WellDotted s lead L D

/-- A view that shows other items than those that the list behind it is in step with. -/
structure OutOfLine (w : ViewId) (l : ListId) (n : NodeId) (f : Field) (k : Kind) (dots : List Value)
    (D D' : List Value) (s : Store) : Prop where
  held : Held s w l n f k .dotted
  shown : s.ShowsItems w D'
  leading : ∀ d ∈ dots, s.Dot d
  items : ∀ x ∈ D', s.Item "dot" x
  behind : ∃ L, s.HasItems l .nodes (dots ++ L) ∧ Chain s.Dot (s.Item "dot") s.joins L D

section Steps
variable {w : ViewId} {l : ListId} {n : NodeId} {f : Field} {k : Kind} {dots D D' L E : List Value}
  {plan : Plan Value} {dir : Direction}

theorem DotsPassed.chain (h : DotsPassed w l D' dots L dir s t E plan)
    (hkeys : plan.result.map (sepKey "dot" t) = chained t.joins D') :
    Chain t.Dot (t.Item "dot") t.joins plan.result D' :=
  chain_of_keys hkeys (fun x hx => (h.belong x hx).key)

theorem OutOfLine.step (hout : OutOfLine w l n f k dots D D' s)
    (hsub : (dir = .adding ∧ D.Sublist D') ∨ (dir = .taking ∧ D'.Sublist D)) (h : bringInStep fuel dir w p s = .ok () t) :
    OutOfLine w l n f k dots D' D' t := by
  obtain ⟨L,hlist,hL⟩ := hout.behind
  obtain ⟨E,plan,hpass⟩ := bringInStep_dots hout.held hout.shown hlist hout.leading hL.mem.1 hL.head hout.items h
  have htype := Freedom.editing_type w l
  have hkeys : L.map (sepKey "dot" t) = chained t.joins D :=
    (hL.frame hpass.frame htype).keys (fun d hd => hd.key) (fun x hx => hx.sepKey)
  refine ⟨stable_held _ _ hout.held hpass.frame,hpass.shown,?_,?_,plan.result,hpass.behind,hpass.chain ?_⟩
  · exact fun d hd => (hout.leading d hd).frame hpass.frame htype
  · exact fun x hx => (hout.items x hx).frame hpass.frame htype
  · rw [← hpass.expected]
    rcases hsub with ⟨hdir,hsub⟩ | ⟨hdir,hsub⟩
    · refine hpass.fits ((hpass.adding hdir).all_placed ?_)
      rw [hkeys,hpass.expected]
      exact chained_sublist hsub
    · refine (hpass.taking hdir).keys_eq hpass.fits ?_
      rw [hkeys,hpass.expected]
      exact chained_sublist hsub

theorem OutOfLine.realigned (hout : OutOfLine w l n f k dots D D' s) (h : Passes p w [.taking,.adding] s u) :
    OutOfLine w l n f k dots D' D' u := by
  cases h with
  | @cons _ t _ _ _ _ h₁ hrest =>
    obtain ⟨fuel,h₂⟩ := hrest.single
    have htype := Freedom.editing_type w l
    obtain ⟨L,hlist,hL⟩ := hout.behind
    obtain ⟨E,plan,hpass⟩ := bringInStep_dots hout.held hout.shown hlist hout.leading hL.mem.1 hL.head hout.items h₁
    have hbegins : plan.result.map (sepKey "dot" t) <+: chained t.joins D' :=
      hpass.expected ▸ (hpass.taking rfl).isPrefix_keys hpass.fits
    have hheld := stable_held _ _ hout.held hpass.frame
    have hdots : ∀ d ∈ dots, t.Dot d := fun d hd => (hout.leading d hd).frame hpass.frame htype
    have hitems : ∀ x ∈ D', t.Item "dot" x := fun x hx => (hout.items x hx).frame hpass.frame htype
    -- what is left begins with an item, so the dots in front are still the same
    have hhead := head_of_prefix hbegins (fun x hx => (hpass.belong x hx).key)
    obtain ⟨E',plan',hpass'⟩ := bringInStep_dots hheld hpass.shown hpass.behind hdots hpass.belong hhead hitems h₂
    have hsame : plan.result.map (sepKey "dot" u) = plan.result.map (sepKey "dot" t) :=
      List.map_congr_left (fun x hx => sepKey_frame (hpass.belong x hx).typed hpass'.frame htype)
    have hjoins : chained u.joins D' = chained t.joins D' :=
      chained_congr (fun x hx => Store.joins_frame (hitems x hx).typed hpass'.frame htype)
    have hall := (hpass'.adding rfl).all_placed (by rw [hsame,hpass'.expected,hjoins]; exact hbegins.sublist)
    refine ⟨stable_held _ _ hheld hpass'.frame,hpass'.shown,?_,?_,plan'.result,hpass'.behind,hpass'.chain ?_⟩
    · exact fun d hd => (hdots d hd).frame hpass'.frame htype
    · exact fun x hx => (hitems x hx).frame hpass'.frame htype
    · rw [hpass'.fits hall,hpass'.expected]

theorem itemsFromEach_texts (hheld : Held s w l n f k .dotted) (hvs : ∀ v ∈ vs, ∃ text, v = .text text) :
    (itemsFromEach w vs).Meets (fun s' => s' = s) (Store.Frame .attributes)
      (fun xs t => Held t w l n f k .dotted ∧ ∀ x ∈ xs, t.Item "dot" x) := by
  have hgives : Gives .attributes (fun s => Held s w l n f k .dotted) (fun xs s => ∀ x ∈ xs, s.Item "dot" x)
      (itemsFromEach w vs) := by
    refine itemsFromEach_each (fun _ _ _ hs hF => hs.frame hF Freedom.type_kept) (fun v hv => ?_)
    obtain ⟨text,rfl⟩ := hvs v hv
    exact itemFrom_dotted stable_held (fun s hs => hs) hheld.through text
  exact Edit.Meets.weaken hgives (fun s' hs' => hs' ▸ hheld) (fun xs t ht => ht)

/-- One call. -/
theorem InLine.call (h : InLine s w l n f k lead D L) (htexts : ∀ v ∈ change.values s, ∃ text, v = .text text)
    (hrun : change.run w p s = .ok r u) :
    ∃ xs t D' L', itemsFromEach w (change.values s) p s = .ok xs t ∧ change.Makes D xs D' ∧
      InLine u w l n f k lead D' L' := by
  obtain ⟨dots,rest,rfl,rfl,hdots,hrest⟩ := h.dotted
  have htype := Freedom.editing_type w l
  obtain ⟨xs,t,D',hxs,hmakes,-,hF,hshown,hlist,hD',hpasses⟩ := Change.run_made (fun x s t hx hF => hx.frame hF htype)
    (fun _ _ hx => hx.typed) h.shown h.behind hrest.mem.2 (fun _ hc _ => h.held.plain (by decide) hc)
    (fun xs t hxs => (Edit.Meets.frame_ok (itemsFromEach_texts h.held htexts) rfl hxs).imp_right And.right) hrun
  have hout : OutOfLine w l n f k dots D D' (t.showing w D') :=
    ⟨stable_held _ _ h.held hF,hshown,fun d hd => (hdots d hd).frame hF htype,hD',rest,hlist,hrest.frame hF htype⟩
  have hin := hpasses.settle (O := OutOfLine w l n f k dots) (I := fun D => OutOfLine w l n f k dots D D) hmakes hout
    (fun hsub fuel hpass => hout.step (.inl ⟨rfl,hsub⟩) hpass) (fun hsub fuel hpass => hout.step (.inr ⟨rfl,hsub⟩) hpass)
    (fun D s u hs hboth => hs.realigned hboth) (fun s hs => hs)
  obtain ⟨L',hlist',hchain'⟩ := hin.behind
  exact ⟨xs,t,D',dots ++ L',hxs,hmakes,hin.held,hin.shown,hlist',dots,L',rfl,rfl,hin.leading,hchain'⟩

theorem InLine.failed {fault : Fault} (h : InLine s w l n f k lead D L)
    (htexts : ∀ v ∈ change.values s, ∃ text, v = .text text) (hrun : change.run w p s = .error fault u)
    (hshown : u.ShowsItems w D) (hbehind : u.HasItems l .nodes L) : InLine u w l n f k lead D L := by
  obtain ⟨dots,rest,hL,hlead,hdots,hrest⟩ := h.dotted
  have hF := Change.frame_of_error stable_held h.held h.shown (fun x hx => (hrest.mem.2 x hx).typed.node) (fun _ => by decide)
    (fun _ hs => hs.target) (Edit.Meets.weaken (itemsFromEach_texts h.held htexts) (fun _ h => h) (fun _ _ _ => trivial)) expectedItems_held
    alignSeparators_dotted hrun
  have htype := Freedom.editing_type w l
  exact ⟨stable_held _ _ h.held hF,hshown,hbehind,dots,rest,hL,hlead,fun d hd => (hdots d hd).frame hF htype,
    hrest.frame hF htype⟩

theorem Calls.inLine (hcalls : Calls (fun _ v => ∃ text, v = .text text) p w l s t) (h : InLine s w l n f k lead D L) :
    ∃ D' L', InLine t w l n f k lead D' L' := by
  induction hcalls with
  | none => exact ⟨D,L,h⟩
  | done _ htexts hrun ih =>
    obtain ⟨D₁,L₁,h₁⟩ := ih
    obtain ⟨_,_,D₂,L₂,-,-,h₂⟩ := h₁.call htexts hrun
    exact ⟨D₂,L₂,h₂⟩
  | failed _ htexts hrun hshown hbehind ih =>
    obtain ⟨D₁,L₁,h₁⟩ := ih
    exact ⟨D₁,L₁,h₁.failed htexts hrun (hshown D₁ h₁.shown) (hbehind L₁ h₁.behind)⟩

theorem WellDotted.count_eq (h : WellDotted s lead L D) {x : Value} (hx : x ∈ D) :
    L.countP (fun v => v.is x) = D.countP (fun v => v.is x) := by
  obtain ⟨dots,rest,rfl,-,hdots,hrest⟩ := h
  have hdot : ∀ d, s.Dot d → d.is x = false := by
    intro d hd
    have hitem := hrest.mem.2 x hx
    have hlinks : s.Links d := .inl hd
    rw [Bool.eq_false_iff]
    intro his
    have hsame := (hlinks.typed.is_iff hitem.typed).mp his
    have hkey := hitem.sepKey
    rw [← hsame,hd.key] at hkey
    cases hkey
  rw [List.countP_append,hrest.countP_eq hdot,List.countP_eq_zero.mpr (fun d hd => by simp [hdot d (hdots d hd)])]
  exact Nat.zero_add _

/-- Every call that succeeds, whatever calls came before it, does to the items what it does to an ordinary
list, and leaves as many dots in front of them as there were and one between any two, but none before a
call or a subscript. -/
theorem run_dots_inLine {lead : Nat} {u : Store} {change : Change} (h : InLine s w l n f k lead D L)
    (hcalls : Calls (fun _ v => ∃ text, v = .text text) p w l s t)
    (htexts : ∀ v ∈ change.values t, ∃ text, v = .text text) (hrun : change.run w p t = .ok () u) :
    ∃ D₁ xs t' D₂ L₂, t.ShowsItems w D₁ ∧ itemsFromEach w (change.values t) p t = .ok xs t' ∧ change.Makes D₁ xs D₂ ∧
      InLine u w l n f k lead D₂ L₂ ∧ ∀ x ∈ D₂, L₂.countP (fun v => v.is x) = D₂.countP (fun v => v.is x) := by
  obtain ⟨D₁,L₁,h₁⟩ := hcalls.inLine h
  obtain ⟨xs,t',D₂,L₂,hxs,hmakes,h₂⟩ := h₁.call htexts hrun
  exact ⟨D₁,xs,t',D₂,L₂,h₁.shown,hxs,hmakes,h₂,fun x hx => h₂.dotted.count_eq hx⟩

end Steps

/-- The import `from ..a.b import c`, as far as its module goes. -/
def relativeModule : Store where
  nodes := #[
    ⟨.fromImport,.none,none,false,[.type],[.value],[],[(.field .type,.text "from_import"), (.field .value,.view ⟨0⟩)],none⟩,
    ⟨.dot,.node ⟨0⟩,some (.field .value),false,[.type],[],[],[(.field .type,.text "dot")],none⟩,
    ⟨.dot,.node ⟨0⟩,some (.field .value),false,[.type],[],[],[(.field .type,.text "dot")],none⟩,
    ⟨.name,.node ⟨0⟩,some (.field .value),false,[.type,.value],[],[],
      [(.field .type,.text "name"), (.field .value,.text "a")],none⟩,
    ⟨.dot,.node ⟨0⟩,some (.field .value),false,[.type],[],[],[(.field .type,.text "dot")],none⟩,
    ⟨.name,.node ⟨0⟩,some (.field .value),false,[.type,.value],[],[],
      [(.field .type,.text "name"), (.field .value,.text "b")],none⟩]
  lists := #[⟨.nodes,[.node ⟨1⟩,.node ⟨2⟩,.node ⟨3⟩,.node ⟨4⟩,.node ⟨5⟩],.node ⟨0⟩,some (.field .value),[]⟩]
  views := #[⟨.dotted,.list ⟨0⟩,[.node ⟨3⟩,.node ⟨5⟩],some (.field .value),none,none,[]⟩]

theorem relativeModule_inLine : InLine relativeModule ⟨0⟩ ⟨0⟩ ⟨0⟩ .value .fromImport 2 [.node ⟨3⟩,.node ⟨5⟩]
    [.node ⟨1⟩,.node ⟨2⟩,.node ⟨3⟩,.node ⟨4⟩,.node ⟨5⟩] where
  held := ⟨⟨_,rfl,rfl,rfl,rfl⟩,⟨_,rfl,rfl,rfl,rfl⟩,⟨_,rfl,rfl⟩,rfl⟩
  shown := ⟨_,rfl,rfl⟩
  behind := ⟨_,rfl,rfl,rfl⟩
  dotted := by
    have hdot : ∀ {i : Nat} {c : NodeCell}, relativeModule.nodes[i]? = some c →
        c.stored? (.field .type) = some (.text "dot") → relativeModule.Dot (.node ⟨i⟩) := by
      intro i c hc htype
      exact ⟨c.kind,⟨i⟩,c,rfl,hc,rfl,htype⟩
    have hname : ∀ {i : Nat} {c : NodeCell}, relativeModule.nodes[i]? = some c →
        c.stored? (.field .type) = some (.text "name") → relativeModule.Item "dot" (.node ⟨i⟩) := by
      intro i c hc htype
      exact ⟨c.kind,.text "name",⟨⟨i⟩,c,rfl,hc,rfl,htype⟩,by simp⟩
    refine ⟨[.node ⟨1⟩,.node ⟨2⟩],[.node ⟨3⟩,.node ⟨4⟩,.node ⟨5⟩],rfl,rfl,?_,?_⟩
    · simp only [List.mem_cons,List.not_mem_nil,or_false,forall_eq_or_imp,forall_eq]
      exact ⟨hdot rfl rfl,hdot rfl rfl⟩
    · exact .cons (hname rfl rfl) (.dotted (hdot rfl rfl) (hname rfl rfl) rfl .nil)

/-- The answer to the text `from a.x import s`. -/
def parsedModule : Datum :=
  .list [.record [("type",.text "from_import"), ("first_formatting",.list [spaceDatum]),
    ("value",.list [.record [("type",.text "name"), ("value",.text "a")],dotDatum,
      .record [("type",.text "name"), ("value",.text "x")]]),
    ("second_formatting",.list [spaceDatum]), ("third_formatting",.list [spaceDatum]),
    ("targets",.list [.record [("type",.text "name_as_name"), ("value",.text "s"), ("first_formatting",.list []),
      ("second_formatting",.list []), ("target",.text "")]])]]

/-- An item is put in between the two that are there, and then the first one is taken out. -/
theorem run_dots_inLine_module : ∃ t u D L,
    (Change.insert 1 (.text "x")).run ⟨0⟩ (fun _ => .ok parsedModule) relativeModule = .ok () t ∧
    (Change.delete (.index 0)).run ⟨0⟩ (fun _ => .ok parsedModule) t = .ok () u ∧
    InLine u ⟨0⟩ ⟨0⟩ ⟨0⟩ .value .fromImport 2 D L := by
  have hsucceeds : (do
      Change.run ⟨0⟩ (.insert 1 (.text "x"))
      Change.run ⟨0⟩ (.delete (.index 0)) : Edit Unit).succeeds (fun _ => .ok parsedModule) relativeModule = true := by
    decide +kernel
  obtain ⟨_,u,hruns⟩ := Edit.succeeds_iff.mp hsucceeds
  obtain ⟨_,t,hinsert,hdelete⟩ := Edit.bind_ok.mp hruns
  have htexts : ∀ v ∈ (Change.insert 1 (.text "x")).values relativeModule, ∃ text, v = .text text := by
    intro v hv
    exact ⟨"x",List.mem_singleton.mp hv⟩
  have hcalls : Calls (fun _ v => ∃ text, v = .text text) (fun _ => .ok parsedModule) ⟨0⟩ ⟨0⟩ relativeModule t :=
    .done .none htexts hinsert
  obtain ⟨_,_,_,D,L,-,-,-,hline,-⟩ := run_dots_inLine relativeModule_inLine hcalls (by simp [Change.values]) hdelete
  exact ⟨t,u,D,L,hinsert,hdelete,hline⟩

end CodeTree
