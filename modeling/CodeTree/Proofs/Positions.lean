import CodeTree.Proofs.DocumentBoxes
import CodeTree.Proofs.FindingFirst
import CodeTree.Proofs.Lossless
import CodeTree.Proofs.PuttingLines

/-! # Positions

The keys to a position of a text are those to the record that spells the character there, and the word of the slot that
spells it. The boxes that contain the position are those of the parts on the way to that record.
-/
namespace CodeTree
variable {α : Type} {c : Char} {d e whole : Datum} {f : Field} {fields : List (String × Datum)}
  {cs xs ys text before after : List Char} {ds : List Datum} {keys rest : List Key} {slots : List Slot} {i : Nat}
  {m : NodeId} {p : Position} {shown : Shown} {x : String} {v : Value}

section Spotting

namespace SpotSearch
variable {line column : Int} {st : SpotSearch}

/-- A character that ends no line stops the search at the position sought, and moves it on by one anywhere else. -/
theorem pass_push (hc : c ≠ '\n') (ps : List Text.Piece) : st.pass line column (Text.Piece.push c ps) =
      if (st.position.line : Int) = line ∧ (st.position.column : Int) = column then .inl (some st.path.reverse)
      else { st with position := st.position.next c }.pass line column ps := by
  have hnext : st.position.next c = ⟨st.position.line,st.position.column + 1⟩ := if_neg hc
  rw [hnext]
  have hone : st.pass line column (.run [c] :: ps) =
      if (st.position.line : Int) = line ∧ (st.position.column : Int) = column then .inl (some st.path.reverse)
      else { st with position := ⟨st.position.line,st.position.column + 1⟩ }.pass line column ps := by
    simp only [pass,Position.after,List.length_singleton]
    congr 1
    apply propext
    omega
  unfold Text.Piece.push
  split
  · next text rest =>
    have hsame : st.position.column + (text.length + 1) = st.position.column + 1 + text.length := by omega
    simp only [pass,Position.after,List.length_cons,hsame]
    by_cases hhere : (st.position.line : Int) = line ∧ (st.position.column : Int) = column
    · rw [if_pos hhere,if_pos (by omega)]
    · rw [if_neg hhere]
      congr 1
      apply propext
      omega
  · exact hone

theorem pieces_letter (hc : c ≠ '\n') (hr : c ≠ '\r') (cs : List Char) :
    Text.pieces (c :: cs) = Text.Piece.push c (Text.pieces cs) := by
  rw [Text.pieces]
  · exact if_neg (not_or.mpr ⟨hc,hr⟩)
  · exact fun _ h => absurd h hr

theorem pass_on (hr : c ≠ '\r') (hp : ¬ p.Before (st.position.next c)) : st.pass p.line p.column (Text.pieces (c :: cs)) =
      { st with position := st.position.next c }.pass p.line p.column (Text.pieces cs) := by
  by_cases hc : c = '\n'
  · subst hc
    have hpieces : Text.pieces ('\n' :: cs) = .newline ['\n'] :: Text.pieces cs := by rw [Text.pieces] <;> simp
    have hline : ¬ ((st.position.next '\n').line : Int) > p.line := by
      unfold Position.Before at hp
      omega
    rw [hpieces,pass]
    exact if_neg hline
  · have hne : ¬ ((st.position.line : Int) = p.line ∧ (st.position.column : Int) = p.column) := by
      have hbefore := st.position.before_next c
      unfold Position.Before at hp hbefore
      omega
    rw [pieces_letter hc hr,pass_push hc,if_neg hne]

theorem pass_before (hr : '\r' ∉ cs) (hp : p = st.position.along (cs ++ xs)) :
    st.pass p.line p.column (Text.pieces cs) = .inr { st with position := st.position.along cs } := by
  induction cs generalizing st with
  | nil => rfl
  | cons c cs ih =>
    rw [List.mem_cons,not_or] at hr
    rw [pass_on (fun h => hr.1 h.symm) (hp ▸ Position.along_not_before _ (cs ++ xs))]
    exact ih hr.2 hp

theorem pass_here (hr : '\r' ∉ cs ++ c :: ys) (hc : c ≠ '\n') (hp : p = st.position.along cs) :
    st.pass p.line p.column (Text.pieces (cs ++ c :: ys)) = .inl (some st.path.reverse) := by
  induction cs generalizing st with
  | nil =>
    have hr' : c ≠ '\r' := fun h => hr (h ▸ List.mem_cons_self)
    subst hp
    rw [List.nil_append,pieces_letter hc hr',pass_push hc,if_pos ⟨rfl,rfl⟩]
  | cons d cs ih =>
    rw [List.cons_append,List.mem_cons,not_or] at hr
    rw [List.cons_append,pass_on (fun h => hr.1 h.symm) (hp ▸ Position.along_not_before _ cs)]
    exact ih hr.2 hp

/-- The search comes to the keys that the character at the position stands under. -/
theorem run_lettered {events : List Event} {texts : List String} {fault : Option Fault} {xs ys : List (Char × List Key)}
    {q : List Key} (htexts : Datum.spell events = .ok texts) (hcs : lettered st.path events = xs ++ (c,q) :: ys)
    (hr : '\r' ∉ (xs ++ (c,q) :: ys).map Prod.fst) (hc : c ≠ '\n') (hp : p = st.position.along (xs.map Prod.fst)) :
    st.run p.line p.column events fault = .ok (some q.reverse) := by
  induction events generalizing st xs texts with
  | nil => cases xs <;> cases hcs
  | cons e events ih =>
    cases e with
    | enter key => exact @ih { st with path := key :: st.path } _ _ htexts hcs hr hp
    | leave => exact @ih { st with path := st.path.tail } _ _ htexts hcs hr hp
    | text d =>
      cases d with
      | text s =>
        obtain ⟨rest,hrest⟩ : ∃ rest, Datum.spell events = .ok rest := by
          cases h : Datum.spell events with
          | ok rest => exact ⟨rest,rfl⟩
          | error fault => simp [Datum.spell,h,Except.map] at htexts
        rw [lettered] at hcs
        have hchars : (s.toList.map (·,st.path)).map Prod.fst = s.toList := by
          rw [List.map_map]
          exact List.map_id _
        have hs : '\r' ∉ s.toList := by
          intro h
          rw [← hcs,List.map_append,hchars] at hr
          exact hr (List.mem_append_left _ h)
        have hbehind : ∀ zs, xs = s.toList.map (·,st.path) ++ zs → lettered st.path events = zs ++ (c,q) :: ys →
            st.run p.line p.column (.text (.text s) :: events) fault = .ok (some q.reverse) := by
          rintro zs rfl hzs
          rw [List.append_assoc,List.map_append,hchars,List.mem_append,not_or] at hr
          rw [List.map_append,hchars] at hp
          rw [run,pass_before hs hp]
          exact @ih { st with position := st.position.along s.toList } _ _ hrest hzs hr.2 (by rw [hp,Position.along_append])
        -- The position lies behind this text or in it.
        rcases List.append_eq_append_iff.mp hcs with ⟨zs,hzs,hafter⟩ | ⟨zs,hzs,hafter⟩
        · exact hbehind zs hzs hafter
        · cases zs with
          | nil => exact hbehind [] (by simpa using hzs.symm) hafter.symm
          | cons z zs =>
            obtain ⟨rfl,-⟩ := List.cons.inj hafter
            have htext : s.toList = xs.map Prod.fst ++ c :: zs.map Prod.fst := by
              rw [← hchars,hzs,List.map_append,List.map_cons]
            have hq : q = st.path := by
              obtain ⟨_,-,heq⟩ := List.mem_map.mp (hzs ▸ List.mem_append_right xs List.mem_cons_self)
              exact (congrArg Prod.snd heq).symm
            rw [htext] at hs
            rw [run,htext,pass_here hs hc hp,hq]
      | _ => cases htexts

end SpotSearch

end Spotting

section Letters
variable {T P : List Key} {a b : Flow Event} {x : String} {key : Key} {q : Char × List Key}

/-- A flow spells the same whatever comes after it, and is left with the keys it was entered with. -/
def Flow.Closed (P : List Key) (a : Flow Event) : Prop :=
  a.fault = none ∧ ∀ rest, lettered P (a.items ++ rest) = lettered P a.items ++ lettered P rest

theorem Skips.closed (h : Skips T P a x) (hr : '\r' ∉ x.toList) : a.Closed P := by
  obtain ⟨cs,-,hread,-⟩ := h.inks hr
  refine ⟨(h.goes hr).1,fun rest => ?_⟩
  have halone := hread []
  rw [List.append_nil] at halone
  rw [hread,halone]
  simp [lettered]

theorem Flow.Closed.append (h : a.Closed P) (b : Flow Event) :
    lettered P (a.append b).items = lettered P a.items ++ lettered P b.items := by
  have hitems : (a.append b).items = a.items ++ b.items := by
    unfold Flow.append
    rw [h.1]
  rw [hitems,h.2]

theorem Flow.Closed.within (h : a.Closed (key :: P)) : lettered P (within key a).items = lettered (key :: P) a.items := by
  have hitems : (CodeTree.within key a).items = .enter key :: (a.items ++ [.leave]) := by
    unfold CodeTree.within Flow.append
    rw [h.1]
    rfl
  rw [hitems,lettered,h.2]
  simp [lettered]

theorem Datum.closed (hx : d.render = .ok x) (hr : '\r' ∉ x.toList) : d.trace.Closed P :=
  (trace_skips d (T := P) (no_suffix_self · _) hx).closed hr

/-- A slot that spells a text itself: a keyword, or a field of text. -/
def Slot.isText : Slot → Bool
  | .constant _ _ => true
  | .field form _ _ => form == .text

/-- A slot of the record at some keys spells a text. -/
def Datum.Spelt (d : Datum) (keys : List Key) (slot : Slot) : Prop :=
  ∃ fields layout, d.Part keys (.record fields) ∧ recordLayout fields = .ok layout ∧ slot ∈ layout ∧ slot.isText = true ∧
    slot.shown.holds fields = true

/-- Every character of a datum stands under the keys to a record and the word of a slot of it. -/
def Accounted (d : Datum) : Prop :=
  ∀ ⦃P : List Key⦄ ⦃x : String⦄ ⦃q : Char × List Key⦄, d.render = .ok x → '\r' ∉ x.toList →
    q ∈ lettered P d.trace.items → ∃ keys slot, d.Spelt keys slot ∧ q.2 = .name slot.word :: (keys.reverse ++ P)

theorem items_accounted (hx : Spells (Datum.traceItems i ds) x) (hr : '\r' ∉ x.toList)
    (hq : q ∈ lettered P (Datum.traceItems i ds).items) : ∃ j d y, ds[j]? = some d ∧ d.render = .ok y ∧
      '\r' ∉ y.toList ∧ q ∈ lettered (.index ((i + j : Nat) : Int) :: P) d.trace.items := by
  induction ds generalizing i x with
  | nil => cases hq
  | cons d ds ih =>
    obtain ⟨y,z,hy,hz,rfl⟩ := Spells.append.mp hx
    rw [String.toList_append,List.mem_append,not_or] at hr
    have hy' := render_ok.mpr (Spells.between.mp hy)
    have hclosed : (within (.index (i : Int)) d.trace).Closed P :=
      ((trace_skips d).within (T := P) (no_suffix_self _ _) hy').closed hr.1
    rw [Datum.traceItems] at hq
    change q ∈ lettered P ((within (.index (i : Int)) d.trace).append (Datum.traceItems (i + 1) ds)).items at hq
    rw [hclosed.append,List.mem_append,(Datum.closed hy' hr.1).within] at hq
    rcases hq with hq | hq
    · exact ⟨0,d,y,rfl,hy',hr.1,hq⟩
    · obtain ⟨j,e,u,he,hu,hru,hq⟩ := ih hz hr.2 hq
      refine ⟨j + 1,e,u,he,hu,hru,?_⟩
      rwa [show i + (j + 1) = i + 1 + j by omega]

theorem slots_accounted {xs : List String} (hxs : List.Forall₂ (SlotSpells fields) slots xs)
    (hr : '\r' ∉ (String.join xs).toList)
    (hq : q ∈ lettered P (Flow.flatMap (slotEvents fields (Datum.traceFields fields)) slots).items) :
    ∃ slot ∈ slots, ∃ y, SlotSpells fields slot y ∧ '\r' ∉ y.toList ∧
      q ∈ lettered P (slotEvents fields (Datum.traceFields fields) slot).items := by
  induction hxs with
  | nil => cases hq
  | @cons slot y slots ys hy _ ih =>
    rw [String.join_cons,String.toList_append,List.mem_append,not_or] at hr
    have hclosed := (slot_skips (T := P) (P := P) (fun _ d _ => trace_skips d)
      (Slot.clear_of_suffix (no_suffix_self _ _)) hy).closed hr.1
    rw [Flow.flatMap_cons,hclosed.append,List.mem_append] at hq
    rcases hq with hq | hq
    · exact ⟨slot,List.mem_cons_self,y,hy,hr.1,hq⟩
    · obtain ⟨slot',hmem,hrest⟩ := ih hr.2 hq
      exact ⟨slot',List.mem_cons_of_mem _ hmem,hrest⟩

/-- A flag is not shown. -/
def Slot.hidesFlag : Slot → Bool
  | .field .flag _ shown => shown == .never
  | _ => true

theorem layout_flags (k : Kind) : ∀ slot ∈ k.layout, slot.hidesFlag = true := by
  cases k <;> decide +kernel

theorem text_accounted (text : String) (hq : q ∈ lettered P (within key (.ofList [.text (.text text)])).items) :
    q.2 = key :: P := by
  have hitems : (within key (.ofList [.text (.text text)])).items = [.enter key,.text (.text text),.leave] := rfl
  rw [hitems] at hq
  simp only [lettered,List.append_nil,List.mem_map] at hq
  obtain ⟨_,-,rfl⟩ := hq
  rfl

theorem accounted (d : Datum) : Accounted d := by
  induction d using Datum.induct with
  | list ds ih =>
    intro P x q hx hr hq
    rw [render_ok,Datum.trace] at hx
    rw [Datum.trace] at hq
    obtain ⟨j,d,y,hd,hy,hry,hq⟩ := items_accounted hx hr hq
    rw [Nat.zero_add] at hq
    obtain ⟨keys,slot,⟨fields,layout,hpart,hspelt⟩,heq⟩ := ih d (List.mem_of_getElem? hd) hy hry hq
    exact ⟨.index j :: keys,slot,⟨fields,layout,.item hd hpart,hspelt⟩,by rw [heq]; simp⟩
  | record fields ih =>
    intro P x q hx hr hq
    obtain ⟨layout,xs,hlayout,hxs,rfl⟩ := render_record.mp hx
    rw [Datum.trace,hlayout] at hq
    obtain ⟨slot,hslot,y,hy,hry,hq⟩ := slots_accounted hxs hr hq
    have hshown : slot.shown.holds fields = true := by
      by_contra hhidden
      unfold slotEvents at hq
      rw [if_neg hhidden] at hq
      cases hq
    have hhere : slot.isText = true → q.2 = .name slot.word :: P → ∃ keys slot, (Datum.record fields).Spelt keys slot ∧
        q.2 = .name slot.word :: (keys.reverse ++ P) :=
      fun htext heq => ⟨[],slot,⟨fields,layout,.here _,hlayout,hslot,htext,hshown⟩,heq⟩
    cases slot with
    | constant text shown =>
      rw [slotEvents_constant hshown] at hq
      exact hhere rfl (text_accounted text hq)
    | field form f shown =>
      by_cases hform : form = .text
      · subst hform
        have hd : lookupLast f.word fields = some (.text y) := (SlotSpells.shown hshown).mp hy
        unfold slotEvents at hq
        rw [if_pos hshown] at hq
        dsimp only at hq
        rw [hd] at hq
        exact hhere rfl (text_accounted y hq)
      · have hpart : form.isText = false := by
          obtain ⟨k,rfl⟩ := recordLayout_kind hlayout
          cases form with
          | text => exact absurd rfl hform
          | flag =>
            cases beq_iff_eq.mp (layout_flags k _ hslot)
            cases hshown
          | _ => rfl
        obtain ⟨d,hd,hy⟩ := (SlotSpells.field hpart hshown).mp hy
        rw [slotEvents_within hform hshown hd,(Datum.closed hy hry).within] at hq
        obtain ⟨keys,slot,⟨fields',layout',hpart',hspelt⟩,heq⟩ := ih _ (lookupLast_mem hd) hy hry hq
        exact ⟨.name f.word :: keys,slot,⟨fields',layout',.slot hlayout hslot hpart hshown hd hpart',hspelt⟩,by rw [heq]; simp⟩
  | _ =>
    intro P x q hx
    rw [render_ok] at hx
    exact absurd hx Spells.fail

end Letters

section Covering

theorem Position.along_before_iff (hxs : xs <+: text) (hys : ys <+: text) :
    (start.along xs).Before (start.along ys) ↔ xs.length < ys.length := by
  rcases List.prefix_or_prefix_of_prefix hxs hys with ⟨zs,rfl⟩ | ⟨zs,rfl⟩
  · rw [along_append,List.length_append]
    cases zs with
    | nil =>
      refine iff_of_false (along_not_before _ []) ?_
      simp
    | cons z zs =>
      refine iff_of_true (before_along _ z zs) ?_
      simp
  · rw [along_append,List.length_append]
    refine iff_of_false (along_not_before _ zs) ?_
    omega

theorem Box.covers_iff {close : List Char} (hbefore : before <+: text) (hclose : close <+: text) (hxs : xs <+: text) :
    Box.Covers ⟨Position.start.along before,(Position.start.along close).left⟩ (Position.start.along xs) ↔
      before.length ≤ xs.length ∧ xs.length < close.length := by
  have hleft : ((Position.start.along close).left).Before (Position.start.along xs) ↔
      ¬ (Position.start.along xs).Before (Position.start.along close) :=
    ⟨fun h h' => Position.not_left_before h' h,Position.left_before (Position.column_along (Nat.le_refl 1) _)⟩
  unfold Box.Covers
  rw [hleft,Position.along_before_iff hxs hbefore,Position.along_before_iff hxs hclose,not_lt,not_not]

/-- The box of a part that is shown contains a position just if the character there stands under the keys to the part. The
box of an alias contains none. -/
theorem Datum.Part.covers_iff (h : d.Part keys e) (hkeys : keys ≠ []) (hx : d.render = .ok x) (hr : '\r' ∉ x.toList)
    {q : Char × List Key} (hchar : x.toList = before ++ c :: after)
    (hq : (lettered [] d.trace.items)[before.length]? = some q) : ∃ box, d.boxAt keys = .ok box ∧
      (box.Covers (Position.start.along before) ↔ endsPlainly keys = true ∧ keys.reverse <:+ q.2) := by
  obtain ⟨s,start,rest,close,-,htext,hhits,hclose⟩ := h.lies hkeys (P := []) hx
  rw [List.append_nil] at hhits
  have hstart : start <+: x.toList := ⟨_,htext.symm⟩
  have hbefore : before <+: x.toList := ⟨_,hchar.symm⟩
  refine ⟨_,hhits.boxAt hr,?_⟩
  cases hends : endsPlainly keys with
  | true =>
    rw [hends] at hclose hhits
    obtain rfl : close = start ++ s.toList := hclose
    obtain ⟨cs,-,hread,hin⟩ := hhits.inks rfl hr
    have halone := hread []
    rw [List.append_nil,lettered,List.append_nil] at halone
    rw [halone] at hq
    rw [Box.covers_iff hstart ⟨rest,by rw [htext,List.append_assoc]⟩ hbefore,hin _ q hq,and_iff_right rfl]
  | false =>
    rw [hends] at hclose
    have hcrossed : close <+: start := hclose
    rw [Box.covers_iff hstart (hcrossed.trans hstart) hbefore]
    have hlen := hcrossed.length_le
    refine iff_of_false ?_ (by simp)
    omega

theorem Datum.pathAt_spelt (hx : d.render = .ok x) (hr : '\r' ∉ x.toList) (hchar : x.toList = before ++ c :: after)
    (hc : c ≠ '\n') (hp : p = Position.start.along before) : ∃ keys slot, d.Spelt keys slot ∧
      d.pathAt p.line p.column = .ok (some (keys ++ [.name slot.word])) ∧
      (lettered [] d.trace.items)[before.length]? = some (c,.name slot.word :: keys.reverse) := by
  obtain ⟨cs,hcs,hread,-⟩ := (trace_skips d (T := []) (P := []) (by simp) hx).inks hr
  have halone := hread []
  rw [List.append_nil,lettered,List.append_nil] at halone
  obtain ⟨texts,hspell⟩ : ∃ texts, Datum.spell d.trace.items = .ok texts := by
    unfold Datum.render at hx
    dsimp only at hx
    cases hspell : Datum.spell d.trace.items with
    | ok texts => exact ⟨texts,rfl⟩
    | error fault => simp [hspell] at hx
  rw [hchar] at hcs
  obtain ⟨xs,zs,rfl,rfl,hzs⟩ := List.map_eq_append_iff.mp hcs
  obtain ⟨⟨c',q⟩,ys,rfl,rfl,-⟩ := List.map_eq_cons_iff.mp hzs
  have hmem : (c',q) ∈ lettered [] d.trace.items := by
    rw [halone]
    exact List.mem_append_right _ List.mem_cons_self
  obtain ⟨keys,slot,hspelt,rfl : q = _⟩ := accounted d hx hr hmem
  rw [List.append_nil] at *
  refine ⟨keys,slot,hspelt,?_,?_⟩
  · have hrun : SpotSearch.run p.line p.column ⟨[],.start⟩ d.trace.items d.trace.fault = _ :=
      SpotSearch.run_lettered hspell halone (by rw [hcs,← hchar]; exact hr) hc hp
    rw [List.reverse_cons,List.reverse_reverse] at hrun
    exact hrun
  · rw [halone]
    simp

end Covering

section Reaching
variable {p : Parser} {t : Store} {root : ListId} {w : ViewId} {height : Nat} {n : NodeId} {c : NodeCell} {e : Datum}
  {keys : List Key}

theorem Kept.get {parent : Value} {place : Option Attr} {a b : Mark} {vs : List Value} {k : Nat}
    (h : Kept (buildEach ds parent place) p a b vs t) (hd : ds[k]? = some d) : ∃ m, vs[k]? = some (.node m) := by
  induction ds generalizing a vs k with
  | nil => cases hd
  | cons d ds ih =>
    obtain ⟨n,rest,e,rfl,-,hds,-⟩ := h.cons
    cases k with
    | zero => exact ⟨n,rfl⟩
    | succ k =>
      rw [List.getElem?_cons_succ] at hd ⊢
      exact ih hds hd

theorem Written.layout (h : Written p t (.node n) (.record fields)) (hc : t.nodes[n.index]? = some c) :
    recordLayout fields = .ok c.kind.layout := by
  generalize hrecord : Datum.record fields = e at h
  cases h with
  | @node _ d parent place a b kept made =>
    obtain ⟨given,k,c',rfl,hg⟩ := kept.grown
    cases hc.symm.trans hg.cell
    by_cases hk : k = .int
    · subst hk
      simp only [settled,settledRecord,hg.kindOf] at hrecord
      cases hrecord
      rw [hg.kind]
      rfl
    · rw [settled_record hg.kindOf hk] at hrecord
      cases hrecord
      rw [hg.settled_layout hk,hg.kind]

theorem Written.absent (h : Written p t (.node n) e) (hc : t.nodes[n.index]? = some c)
    (hslot : .field .child f shown ∈ c.kind.layout) (hv : c.stored? (.field f) = some .none) :
    e.step (.name f.word) = .ok (.record []) := by
  cases h with
  | @node _ d parent place a b kept made =>
    obtain ⟨given,k,c',rfl,hg⟩ := kept.grown
    cases hc.symm.trans hg.cell
    rw [hg.kind] at hslot
    have hk : k ≠ .int := by
      rintro rfl
      cases List.mem_singleton.mp hslot
    obtain ⟨d,v,x,y,hd,hv',-,-,hh⟩ := hg.slot hk hslot
    cases hv.symm.trans hv'
    have htruth : ¬ d.truth = true := by
      intro htruth
      unfold Slotted at hh
      split at hh
      · simp only [Holds,HoldsChild,if_pos htruth] at hh
        obtain ⟨_,_,-,heq,-⟩ := hh
        cases heq
      · obtain ⟨_,_,heq,-⟩ := hh
        cases heq
    rw [settled_record hg.kindOf hk]
    refine Datum.step_name ?_
    rw [lookup_gathered (slot_field_mem hslot),part_child hslot hd,if_neg htruth]

/-- On the way along some keys there is spacing that was set anew: a plain list, which no node is reached in. -/
def Store.Respaced (t : Store) (root : ListId) (keys : List Key) : Prop :=
  ∃ above f below n c l lc, keys = above ++ .name f.word :: below ∧ t.Reaches root above (.node n) ∧
    t.nodes[n.index]? = some c ∧ c.stored? (.field f) = some (.list l) ∧ t.lists[l.index]? = some lc ∧ lc.flavour = .plain

/-- The keys to a record lead to the node that is written as the record. -/
theorem Store.Document.part_reached (hdoc : t.Document w root height) {x : Value} {below : List Key} {layout : List Slot}
    (hlayout : recordLayout fields = .ok layout) (hpart : whole.Part below e) (hfields : e = .record fields)
    (hx : t.Reaches root keys x) (hwritten : Written p t x whole) :
    (∃ n, t.Reaches root (keys ++ below) (.node n) ∧ Written p t (.node n) (.record fields)) ∨
      t.Respaced root (keys ++ below) := by
  induction hpart generalizing keys x with
  | here d =>
    subst hfields
    rw [List.append_nil]
    generalize hrecord : Datum.record fields = e at hwritten
    cases hwritten with
    | @node n d parent place a b kept made => exact .inl ⟨n,hx,.node kept made⟩
    | list => cases hrecord
  | @item ds j d e below member rest ih =>
    generalize hrow : Datum.list ds = e' at hwritten
    cases hwritten with
    | @node _ d' parent place a b kept made =>
      obtain ⟨given,k,c',rfl,hg⟩ := kept.grown
      simp only [settled,settledRecord,hg.kindOf] at hrow
      split at hrow <;> cases hrow
    | @list l lc ds' parent place a b cell nodes kept made =>
      cases hrow
      have hmapped := member
      rw [List.getElem?_map,Option.map_eq_some_iff] at hmapped
      obtain ⟨d',hd',-⟩ := hmapped
      obtain ⟨m,hm⟩ := kept.get hd'
      obtain ⟨e',hstep,he'⟩ := (Written.list cell nodes kept made).item cell hm
      cases (Datum.step_index member).symm.trans hstep
      have hrest := ih hfields (.item hx cell hm) he'
      rwa [List.append_assoc] at hrest
  | @slot given layout' form f shown d e below named member isPart holds held rest ih =>
    obtain ⟨n,rfl⟩ : ∃ n, x = .node n := by
      generalize hrecord : Datum.record given = e' at hwritten
      cases hwritten with
      | @node n => exact ⟨n,rfl⟩
      | list => cases hrecord
    have htree := hdoc.member ((hx.member hdoc).1 n rfl)
    obtain ⟨i,c,rfl,hc⟩ := htree.opens
    cases named.symm.trans (hwritten.layout hc.cell)
    obtain ⟨v,hv,hb⟩ := hc.bears form f shown member
    have hon : ∀ x', t.Reaches root (keys ++ [.name f.word]) x' →
        (∃ e', (Datum.record given).step (.name f.word) = .ok e' ∧ Written p t x' e') →
        (∃ n, t.Reaches root (keys ++ .name f.word :: below) (.node n) ∧ Written p t (.node n) (.record fields)) ∨
          t.Respaced root (keys ++ .name f.word :: below) := by
      rintro x' hx' ⟨e',hstep,he'⟩
      cases (Datum.step_name held).symm.trans hstep
      have hrest := ih hfields hx' he'
      rwa [List.append_assoc] at hrest
    cases hb with
    | datum d isText =>
      rw [isPart] at isText
      cases isText
    | empty =>
      cases (Datum.step_name held).symm.trans (hwritten.absent hc.cell member hv)
      subst hfields
      cases rest with
      | here => cases hlayout
      | slot named => cases named
    | @child m hangs below =>
      exact hon _ (.child hx hc.cell hc.layout member hv) (hwritten.child hc.cell hc.layout member hv)
    | @row _ _ l ms isList covers cell siblings =>
      have hbehind := behind_covers covers
      exact hon _ (.list hx hc.cell hc.layout member hv hbehind cell rfl)
        (hwritten.row hc.cell hc.layout member hv hbehind cell rfl)
    | @loose l lc ms cell plain items siblings => exact .inr ⟨keys,f,below,n,c,l,lc,rfl,hx,hc.cell,hv,cell,plain⟩

theorem Store.Reaches.row {form : Form} {held : Value} {l : ListId} {lc : ListCell} {ms : List NodeId}
    (hx : t.Reaches root keys (.node n)) (hc : t.nodes[n.index]? = some c) (hlayout : c.layout = .ok slots)
    (hslot : .field form f shown ∈ slots) (hv : c.stored? (.field f) = some held) (hcovers : t.Covers held l)
    (hl : t.lists[l.index]? = some lc) (hnodes : lc.flavour = .nodes) (hitems : lc.items = ms.map .node) (hm : m ∈ ms) :
    ∃ keys', t.Reaches root keys' (.node m) := by
  obtain ⟨k,hk⟩ := List.getElem?_of_mem hm
  refine ⟨_,.item (.list hx hc hlayout hslot hv (behind_covers hcovers) hl hnodes) hl (k := k) ?_⟩
  rw [hitems,List.getElem?_map,hk]
  rfl

/-- What hangs at a node that keys lead to, in a slot of children, keys lead to as well. -/
theorem Store.Document.inside_reached (hdoc : t.Document w root height) (hx : t.Reaches root keys (.node n))
    (hm : m ∈ t.inside n) : ∃ keys', t.Reaches root keys' (.node m) := by
  have htree := hdoc.member ((hx.member hdoc).1 n rfl)
  obtain ⟨i,c,rfl,hc⟩ := htree.opens
  rw [hc.inside_eq,List.mem_flatMap] at hm
  obtain ⟨slot,hslot,hm⟩ := hm
  have hheld : ∀ form f shown, slot = .field form f shown → form ≠ .formatting →
      m ∈ (c.stored? (.field f)).elim [] t.nodesOf → ∃ keys', t.Reaches root keys' (.node m) := by
    rintro form f shown rfl hform hm
    obtain ⟨v,hv,hb⟩ := hc.bears form f shown hslot
    rw [hv,Option.elim_some] at hm
    cases hb with
    | datum d =>
      rw [t.nodesOf_ofDatum] at hm
      cases hm
    | empty => cases hm
    | child hangs below =>
      cases List.mem_singleton.mp hm
      exact ⟨_,.child hx hc.cell hc.layout hslot hv⟩
    | row isList covers cell siblings =>
      rw [Store.nodesOf_covers covers,Store.rowOf_eq cell rfl] at hm
      exact hx.row hc.cell hc.layout hslot hv covers cell rfl rfl hm
    | loose => exact absurd rfl hform
  cases slot with
  | constant => cases hm
  | field form f shown =>
    cases form with
    | child => exact hheld _ f shown rfl (by decide) (List.mem_of_mem_filter hm)
    | children => exact hheld _ f shown rfl (by decide) hm
    | _ => cases hm

theorem Store.Document.outline_reached (hdoc : t.Document w root height) {depth : Nat} (hx : t.Reaches root keys (.node n))
    (hm : m ∈ t.outline depth n) : ∃ keys', t.Reaches root keys' (.node m) := by
  induction depth generalizing n keys with
  | zero => cases hm
  | succ depth ih =>
    rcases List.mem_cons.mp hm with rfl | hm
    · exact ⟨keys,hx⟩
    · obtain ⟨k,hk,hm⟩ := List.mem_flatMap.mp hm
      obtain ⟨keys',hk⟩ := hdoc.inside_reached hx hk
      exact ih hk hm

end Reaching

section Keywords
variable {t : Store} {n : NodeId} {c : NodeCell} {word : String}

theorem Edit.read_bind {β : Type} (r : Read α) (f : α → Read β) :
    (liftM (r >>= f) : Edit β) = (liftM r : Edit α) >>= fun a => liftM (f a) := by
  funext p s
  have hbind : (r >>= f) s = (r s).bind (fun a => f a s) := rfl
  change Edit.read (r >>= f) p s = (Edit.read r >>= fun a => Edit.read (f a)) p s
  rw [Edit.run_bind]
  unfold Edit.read
  rw [hbind]
  cases r s <;> rfl

theorem firstFound_read (stop : Value → Read Bool) {f : α → Read Value} {g : α → Edit Value} (hg : ∀ a, g a = liftM (f a))
    (xs : List α) : firstFound (fun v => (liftM (stop v) : Edit Bool)) g xs = liftM (firstFound stop f xs) := by
  induction xs with
  | nil => rfl
  | cons a xs ih =>
    simp only [firstFound,Edit.read_bind,hg]
    refine congrArg _ (funext fun v => congrArg _ (funext fun stops => ?_))
    cases stops with
    | true => rfl
    | false => exact ih

/-- Searching is the same whether it is a question or part of an edit. -/
theorem findIn_read {look : Look} {accepts : NodeId → Read Bool} {onText : String → Read Value} (fuel : Nat) (deep : Bool)
    (v : Value) : findIn look (fun n => (liftM (accepts n) : Edit Bool)) (fun s => (liftM (onText s) : Edit Value)) fuel deep v =
      liftM (findIn look accepts onText fuel deep v) := by
  induction fuel generalizing deep v with
  | zero => rfl
  | succ fuel ih =>
    cases v with
    | node n =>
      simp only [findIn]
      rw [Edit.read_bind]
      refine congrArg _ (funext fun found => ?_)
      cases found with
      | true => rfl
      | false =>
        cases deep with
        | false => rfl
        | true =>
          change (liftM (Read.node n) : Edit NodeCell) >>= _ = liftM (Read.node n >>= _)
          rw [Edit.read_bind]
          refine congrArg _ (funext fun c => ?_)
          change (liftM (Read.lift c.layout) : Edit _) >>= _ = liftM (Read.lift c.layout >>= _)
          rw [Edit.read_bind]
          refine congrArg _ (funext fun layout => firstFound_read _ (fun slot => ?_) layout)
          rcases slot with _ | ⟨_ | _ | _ | _ | _,f,shown⟩
          case field.child =>
            change (liftM (look n (.field f)) : Edit Value) >>= _ = liftM (look n (.field f) >>= _)
            rw [Edit.read_bind]
            refine congrArg _ (funext fun child => ?_)
            change (liftM (truthWith look child) : Edit Bool) >>= _ = liftM (truthWith look child >>= _)
            rw [Edit.read_bind]
            refine congrArg _ (funext fun truth => ?_)
            cases truth with
            | true => exact ih true child
            | false => rfl
          case field.children =>
            change (liftM (look n (.field f)) : Edit Value) >>= _ = liftM (look n (.field f) >>= _)
            rw [Edit.read_bind]
            refine congrArg _ (funext fun held => ?_)
            change (liftM (membersWith look held) : Edit (List Value)) >>= _ = liftM (membersWith look held >>= _)
            rw [Edit.read_bind]
            exact congrArg _ (funext fun members => firstFound_read _ (fun v => ih true v) members)
          all_goals rfl
    | list l => 
      simp only [findIn]
      change (liftM (Read.list l) : Edit _) >>= _ = liftM (Read.list l >>= _)
      rw [Edit.read_bind]
      refine congrArg _ (funext fun c => ?_)
      split
      · exact firstFound_read (fun found => pure !found.isNone) (fun v => ih deep v) c.items
      · rfl
    | view w => 
      simp only [findIn]
      change (liftM (Read.view w) : Edit _) >>= _ = liftM (Read.view w >>= _)
      rw [Edit.read_bind]
      exact congrArg _ (funext fun c => ih deep c.target)
    | _ => rfl

/-- A node goes by a word. -/
def Store.goesBy (t : Store) (word : String) (n : NodeId) : Bool :=
  match (t.nodes[n.index]?).map NodeCell.identifiers with
  | some (.ok words) => words.contains (soughtWord word)
  | _ => false

theorem Store.Tree.hasWord (h : t.Tree i n) (hword : plainlySought word = true) :
    CodeTree.hasWord word n t = .ok (t.goesBy word n) := by
  obtain ⟨i,c,rfl,hc⟩ := h.opens
  obtain ⟨first,words,hwords⟩ := hc.identifiers
  simp only [plainlySought,Bool.and_eq_true,Bool.not_eq_true'] at hword
  unfold CodeTree.hasWord Store.goesBy
  rw [Read.node_known hc.cell,Read.bind_known (Read.lift_ok.mpr hwords),hc.cell,Option.map_some,hwords,
    Read.lift_ok]
  unfold matchesWord
  rw [hword.1,hword.2]
  rfl

/-- The first of some nodes and what is below them that a search for a word comes to. -/
def Store.firstBy (t : Store) (word : String) (starts : List NodeId) : Option NodeId :=
  (starts.flatMap (t.sought (t.goesBy word) t.depth)).head?

theorem Store.Starts.search {height : Nat} {starts : List NodeId} (h : t.Starts height v starts)
    (hdepth : height + 1 < t.depth) (hword : plainlySought word = true) :
    searchWith look word v t = .ok (foundValue (t.firstBy word starts)) := by
  have hfind : findIn look (fun n => (liftM (CodeTree.hasWord word n) : Edit Bool)) (fun s =>
      (liftM (pure (.int (positionOf word.toList s.toList 0)) : Read Value) : Edit Value)) t.depth true v
      (fun _ => .error .noKey) t = .ok (foundValue (t.firstBy word starts)) t :=
    h.findFirst hdepth (fun r hr m hm => Edit.read_ok.mpr ⟨(hm.tree (h.trees r hr)).hasWord hword,rfl⟩)
  rw [findIn_read] at hfind
  exact (Edit.read_ok.mp hfind).1

/-- The nodes at which a search begins for what a node does not have: the items of its value if that is a view. -/
def Store.asked (t : Store) (n : NodeId) : List NodeId :=
  match (t.nodes[n.index]?).bind (NodeCell.stored? · (.field .value)) with
  | some (.view w) => t.nodesOf (.view w)
  | _ => [n]

/-- A word under which nodes and lists neither store nor compute anything, so that it stands for a search. -/
structure OnlySought (word : String) : Prop where
  quiet : (Attr.ofWord word).quiet = true
  sought : plainlySought word = true
  uncomputed : nodeProperties.lookup word = none ∧ listProperties.lookup word = none ∧ documentProperties.lookup word = none

theorem keyword_sought {k : Kind} (h : .constant word shown ∈ k.layout) : OnlySought word := by
  obtain ⟨hquiet,hsought⟩ := layout_quiet h
  refine ⟨hquiet,hsought,?_⟩
  have hall : ∀ text ∈ constantTexts, (nodeProperties.lookup text).isNone = true ∧
      (listProperties.lookup text).isNone = true ∧ (documentProperties.lookup text).isNone = true := by decide +kernel
  have hlisted := List.contains_iff_mem.mp (layout_listed k _ h)
  simpa only [Option.isNone_iff_eq_none] using hall word hlisted

theorem Read.orElseMissing_known {r d : Read α} {a : α} (h : r t = .ok a) : Read.orElseMissing r d t = .ok a := by
  unfold Read.orElseMissing
  rw [h]

section Document
variable {w : ViewId} {root : ListId} {height : Nat} (hdoc : t.Document w root height) (hn : t.Member w n)
  (hc : t.nodes[n.index]? = some c) (hword : OnlySought word)
include hdoc hn hc hword

theorem Store.Document.view_sought {v : ViewId} {D : Nat} (hstored : c.stored? (.field .value) = some (.view v)) :
    attrAt (D + 2) (.view v) word t = .ok (foundValue (t.firstBy word (t.nodesOf (.view v)))) := by
  have hdepth := hdoc.depth
  obtain ⟨hquiet,hsought,-,hlist,hdocument⟩ := hword
  obtain ⟨j,-,hs⟩ := (hdoc.member hn).stands hc
  obtain ⟨vc,l,ms,hvc,htarget,hextra,hl,-⟩ := hs.view hstored
  have hcovers : t.Covers (.view v) l := .inr ⟨v,vc,rfl,hvc,htarget,hextra⟩
  have hsearch := (hdoc.startsAt (.list hn hc hstored (behind_covers hcovers) hl rfl)).search (by omega) hsought
  rw [show t.nodesOf (.list l) = t.nodesOf (.view v) from (Store.nodesOf_covers hcovers).symm] at hsearch
  have hplain : plainAttr (.list l) (.ofWord word) t = .ok (foundValue (t.firstBy word (t.nodesOf (.view v)))) := by
    change attrWith look t.depth (.list l) (.ofWord word) t = _
    unfold attrWith
    rw [Read.list_known hl,if_pos (by rfl),ListCell.own_quiet hquiet rfl,Attr.word_ofWord]
    exact hsearch
  unfold attrAt
  dsimp only
  rw [Read.view_known hvc,hdocument,ite_self,ViewCell.own_quiet hquiet hextra,htarget]
  dsimp only
  unfold attrAt
  dsimp only
  rw [Read.list_known hl,if_pos (by rfl),hlist]
  exact hplain

theorem Store.Document.attr_sought (hnone : c.stored? (.ofWord word) = none) :
    attr (.node n) word t = .ok (foundValue (t.firstBy word (t.asked n))) := by
  have htree := hdoc.member hn
  have hdepth := hdoc.depth
  obtain ⟨hquiet,hsought,huncomputed,-⟩ := id hword
  have hne : Attr.ofWord word ≠ .field .value := by
    intro h
    rw [h] at hquiet
    cases hquiet
  obtain ⟨D,hD⟩ : ∃ D, t.depth = D + 3 := ⟨t.depth - 3,by have := htree.succ; omega⟩
  obtain ⟨v,hv,hvalue⟩ := htree.lookAt_value (F := t.depth) (by omega) (by omega) hc
  have hlook : Read.orElseMissing (look n (.field .value)) (pure .none) t = .ok v := Read.orElseMissing_known hv
  have hstart : attr (.node n) word t = missingWith look (fun w b => attrAt (D + 2) (.view w) b.word) n (.ofWord word) t := by
    change attrAt t.depth (.node n) word t = _
    rw [hD,attrAt,huncomputed]
    dsimp only
    rw [Read.node_known hc,NodeCell.own_quiet hquiet,hnone]
  rw [hstart]
  unfold missingWith
  rw [Read.node_known hc,NodeCell.alias_quiet hquiet]
  dsimp only
  rw [if_neg hne,Read.bind_known hlook,Attr.word_ofWord]
  have hplain : (∀ u, c.stored? (.field .value) ≠ some (.view u)) → t.asked n = [n] := by
    intro hview
    unfold Store.asked
    rw [hc,Option.bind_some]
    split
    · next u hu => exact absurd hu (hview u)
    · rfl
  have hself := (hdoc.startsAt (.node hn)).search (by omega) hsought
  cases v with
  | view u =>
    rcases hvalue with hstored | ⟨-,hfound | hfound | ⟨_,_,hfound,-⟩⟩
    · have hasked : t.asked n = t.nodesOf (.view u) := by
        unfold Store.asked
        rw [hc,Option.bind_some,hstored]
      rw [hasked]
      exact Read.orElseMissing_known (hdoc.view_sought hn hc hword hstored)
    all_goals cases hfound
  | _ =>
    rw [hplain (fun u hu => ?_)]
    · exact hself
    · rcases hvalue with hstored | ⟨hstored,-⟩
      · cases hu.symm.trans hstored
      · cases hu.symm.trans hstored

end Document

/-- No list is held under the word of a slot that spells a text. -/
def Slot.isApart (slot other : Slot) : Bool :=
  match other with
  | .field form _ _ => !slot.isText || !form.isList || other.word != slot.word
  | _ => true

theorem layout_rows (k : Kind) : ∀ slot ∈ k.layout, ∀ other ∈ k.layout, slot.isApart other = true := by
  cases k <;> decide +kernel

/-- The node that the word of a slot leads to from a node: a child that goes by the word, or the first node that a search for
the word comes to, or the node itself. -/
def Store.goal (t : Store) (n : NodeId) (word : String) : NodeId :=
  ((t.nodes[n.index]?).bind (NodeCell.stored? · (.ofWord word))).elim ((t.firstBy word (t.asked n)).getD n)
    (fun v => v.node?.getD n)

theorem follow_word {child : Value} (hchild : attr (.node n) word t = .ok child)
    (hstep : stepTo (.node n) child t = .ok (.node m)) : follow (.node n) [.text word] t = .ok (some (.node m)) := by
  have hasked : Read.orElseMissing (some <$> attr (.node n) word) (pure none) t = .ok (some child) := by
    refine Read.orElseMissing_known ?_
    change (attr (.node n) word t).map some = _
    rw [hchild]
    rfl
  unfold follow
  rw [Read.bind_known hasked]
  dsimp only
  rw [Read.bind_known hstep]
  rfl

theorem stepTo_ofDatum (d : Datum) : stepTo (.node n) (.ofDatum d) t = .ok (.node n) := by
  cases d <;> rfl

section Goal
variable {w : ViewId} {root : ListId} {height : Nat} {keys : List Key} {slot : Slot} (hdoc : t.Document w root height)
  (hx : t.Reaches root keys (.node n)) (hc : t.nodes[n.index]? = some c) (hslot : slot ∈ c.kind.layout)
  (htext : slot.isText = true)
include hdoc hx hc hslot htext

/-- What a node stores under the word of a slot that spells a text is no list. -/
theorem Store.Document.follow_stored (hv : c.stored? (.ofWord slot.word) = some v) :
    follow (.node n) [.text slot.word] t = .ok (some (.node (t.goal n slot.word))) ∧
      ∃ keys', t.Reaches root keys' (.node (t.goal n slot.word)) := by
  obtain ⟨i,-,hs⟩ := (hdoc.member ((hx.member hdoc).1 n rfl)).stands hc
  have hgoal : t.goal n slot.word = v.node?.getD n := by
    unfold Store.goal
    rw [hc,Option.bind_some,hv]
    rfl
  have hattr : ∀ f, Attr.ofWord slot.word = .field f → slot.word = f.word ∧ attr (.node n) slot.word t = .ok v := by
    intro f hf
    have hword : slot.word = f.word := by rw [← Attr.word_ofWord slot.word,hf]; rfl
    rw [hf] at hv
    exact ⟨hword,hword ▸ attr_stored hc hv⟩
  rw [hgoal]
  rcases hs.own _ _ hv with htype | ⟨f,hmem,hf⟩
  · rw [htype,hs.type] at hv
    cases hv
    exact ⟨follow_word (hattr .type htype).2 rfl,keys,hx⟩
  obtain ⟨hword,hattr⟩ := hattr f hf
  rw [hf] at hv
  obtain ⟨form,shown,hfield⟩ := mem_slotFields hmem
  obtain ⟨v',hv',hb⟩ := hs.bears form f shown hfield
  cases hv.symm.trans hv'
  have hrow : form.isList = false := by
    have hapart := layout_rows _ _ hslot _ hfield
    have hsame : ((Slot.field form f shown).word != slot.word) = false := by
      rw [hword]
      simp [Slot.word]
    simpa [Slot.isApart,htext,hsame] using hapart
  cases hb with
  | datum d =>
    have hnone : (Value.ofDatum d).node? = none := by cases d <;> rfl
    rw [hnone]
    exact ⟨follow_word hattr (stepTo_ofDatum d),keys,hx⟩
  | empty => exact ⟨follow_word hattr rfl,keys,hx⟩
  | @child m => exact ⟨follow_word hattr rfl,_,.child hx hc hs.layout hfield hv⟩
  | row isList =>
    rw [hrow] at isList
    cases isList
  | loose => cases hrow

/-- The word of a slot that spells a text leads from a node to its goal, and keys lead there. -/
theorem Store.Document.follow_goal : follow (.node n) [.text slot.word] t = .ok (some (.node (t.goal n slot.word))) ∧
    ∃ keys', t.Reaches root keys' (.node (t.goal n slot.word)) := by
  have hn := (hx.member hdoc).1 n rfl
  obtain ⟨i,-,hs⟩ := (hdoc.member hn).stands hc
  cases hstored : c.stored? (.ofWord slot.word) with
  | some v => exact hdoc.follow_stored hx hc hslot htext hstored
  | none =>
    obtain ⟨word,shown,rfl⟩ : ∃ word shown, slot = .constant word shown := by
      cases slot with
      | constant word shown => exact ⟨word,shown,rfl⟩
      | field form f shown =>
        obtain ⟨v,hv,-⟩ := hs.bears form f shown hslot
        rw [Slot.word,Attr.ofWord_word,hv] at hstored
        cases hstored
    rw [Slot.word] at hstored
    have hgoal : t.goal n word = (t.firstBy word (t.asked n)).getD n := by
      unfold Store.goal
      rw [hc,Option.bind_some,hstored]
      rfl
    have hattr := hdoc.attr_sought hn hc (keyword_sought hslot) hstored
    rw [Slot.word,hgoal]
    cases hfirst : t.firstBy word (t.asked n) with
    | none =>
      rw [hfirst] at hattr
      exact ⟨follow_word hattr rfl,keys,hx⟩
    | some m =>
      rw [hfirst] at hattr
      refine ⟨follow_word hattr rfl,?_⟩
      obtain ⟨r,hr,hm⟩ := List.mem_flatMap.mp (List.mem_of_head? hfirst)
      have houtline := (List.mem_filter.mp ((Store.sought_sublist _).subset hm)).1
      obtain ⟨keys',hr⟩ : ∃ keys', t.Reaches root keys' (.node r) := by
        unfold Store.asked at hr
        rw [hc,Option.bind_some] at hr
        split at hr
        · next u hu =>
          obtain ⟨vc,l,ms,hvc,htarget,hextra,hl,-⟩ := hs.view hu
          have hcovers : t.Covers (.view u) l := .inr ⟨u,vc,rfl,hvc,htarget,hextra⟩
          obtain ⟨form,shown',hfield⟩ : ∃ form shown', .field form .value shown' ∈ c.kind.layout := by
            rcases hs.own _ _ hu with htype | ⟨f,hmem,hf⟩
            · cases htype
            · cases hf
              exact mem_slotFields hmem
          rw [Store.nodesOf_covers hcovers,Store.rowOf_eq hl rfl] at hr
          exact hx.row hc hs.layout hfield hu hcovers hl rfl rfl hr
        · cases List.mem_singleton.mp hr
          exact ⟨keys,hx⟩
      exact hdoc.outline_reached hr houtline

end Goal

end Keywords

section Asking
variable {p : Parser} {t : Store} {w : ViewId} {root : ListId} {height : Nat}

/-- A position as it is asked for. -/
def Position.toValue (q : Position) : Value := .data (.list [.int q.line,.int q.column])

theorem Datum.Part.split (h : d.Part (keys ++ rest) e) : ∃ d', d.Part keys d' ∧ d'.Part rest e := by
  induction keys generalizing d with
  | nil => exact ⟨d,.here d,h⟩
  | cons key keys ih =>
    cases h with
    | item member below =>
      obtain ⟨d',habove,hbelow⟩ := ih below
      exact ⟨d',.item member habove,hbelow⟩
    | slot named member isPart holds held below =>
      obtain ⟨d',habove,hbelow⟩ := ih below
      exact ⟨d',.slot named member isPart holds held habove,hbelow⟩

theorem Datum.Spelt.no_part {slot : Slot} (h : d.Spelt keys slot) (hpart : d.Part (keys ++ [.name slot.word]) e) :
    endsPlainly (keys ++ [.name slot.word]) = false := by
  obtain ⟨fields,layout,howner,hlayout,hslot,htext,-⟩ := h
  obtain ⟨d',habove,hbelow⟩ := hpart.split
  cases howner.follow.symm.trans habove.follow
  generalize hword : slot.word = word at hbelow ⊢
  cases hbelow with
  | @slot _ _ form f shown _ _ _ named member isPart =>
    cases hlayout.symm.trans named
    obtain ⟨k,rfl⟩ := recordLayout_kind named
    by_cases halias : f = .alias
    · subst halias
      simp [endsPlainly,Field.word]
    · obtain ⟨l₁,l₂,heq,h₁,h₂⟩ := layout_apart member isPart halias
      rw [heq] at hslot
      rcases List.mem_append.mp hslot with hmem | hmem
      · exact absurd hword (h₁ slot hmem)
      rcases List.mem_cons.mp hmem with rfl | hmem
      · cases beq_iff_eq.mp htext
        cases isPart
      · exact absurd hword (h₂ slot hmem)

theorem Store.Document.call_position (hdoc : t.Document w root height) (q : Position) :
    call (.view w) "find_by_position" (.ofList [q.toValue]) p t = findAtPosition (.view w) q.toValue p t := by
  obtain ⟨vc,hw,hform,-⟩ := hdoc.view
  have hanswer : viewAnswer w vc "find_by_position" (.ofList [q.toValue]) =
      some (do findAtPosition (.view w) (← Edit.lift ((Arguments.ofList [q.toValue]).one "position"))) :=
    if_pos (by rw [hform]; rfl)
  rw [call_view (by decide) hw hanswer]
  rfl

theorem Store.Document.call_find_by_position (hdoc : t.Document w root height) {q : Position} {j : Int} {goal : Value}
    (hwhole : snapshot (.view w) t = .ok whole) (hpath : whole.pathAt q.line q.column = .ok (some (.index j :: rest)))
    (hfollow : follow (.list root) ((.index j :: rest).map Key.toValue) t = .ok (some goal))
    (hroute : routeKeys goal t = .ok keys) : call (.view w) "find_by_position" (.ofList [q.toValue]) p t = .ok goal t := by
  have hbehind : behind (.view w) t = .ok (.list root) := hdoc.rooted
  have hfrom : follow (.view w) ((.index j :: rest).map Key.toValue) t = .ok (some goal) := by
    rw [← hfollow]
    change follow (.view w) (.int j :: rest.map Key.toValue) t = follow (.list root) (.int j :: rest.map Key.toValue) t
    conv_lhs => unfold follow
    conv_rhs => unfold follow
    rw [Read.bind_known hbehind,Read.bind_known (show behind (.list root) t = .ok (.list root) from rfl)]
  have hway : routeFrom (.view w) (.keys (.index j :: rest)) t = .ok (.route goal keys) := by
    unfold routeFrom
    change (items (.keys (.index j :: rest)) >>= _) t = _
    rw [Read.bind_known (show items (.keys (.index j :: rest)) t = .ok ((.index j :: rest).map Key.toValue) from rfl),
      Read.bind_known hfrom]
    change (routeKeys goal >>= _) t = _
    rw [Read.bind_known hroute]
    rfl
  rw [hdoc.call_position]
  unfold findAtPosition
  rw [Edit.read_known hwhole,Edit.read_known (show items q.toValue t = .ok [.int q.line,.int q.column] from rfl)]
  have hread : (routeFrom (.view w) (.keys (.index j :: rest)) : Edit Value) p t = .ok (.route goal keys) t :=
    Edit.read_ok.mpr ⟨hway,rfl⟩
  exact Edit.bind_ok.mpr ⟨q.line,t,rfl,Edit.bind_ok.mpr ⟨q.column,t,rfl,
    Edit.bind_ok.mpr ⟨_,t,Edit.lift_ok.mpr ⟨hpath,rfl⟩,Edit.bind_ok.mpr ⟨_,t,hread,rfl⟩⟩⟩⟩

/-- What is at a position. The boxes that contain the position of a character of a new document are those of the parts on the
way to the node that spells it, the boxes of aliases left out. Asked for the position, the document gives what the word of the
slot that spells the character leads to from that node: it is the node itself unless a child goes by the word, or a search for
the word comes to another node. -/
theorem find_by_position_goal {source text : String} {s : Store} (h : newDocument source p s = .ok (.view w) t)
    (htext : textOf (.view w) t = .ok text) (hreturn : '\r' ∉ text.toList) :
    ∃ root whole, behind (.view w) t = .ok (.list root) ∧ snapshot (.view w) t = .ok whole ∧
      ∀ before letter after, text.toList = before ++ letter :: after → letter ≠ '\n' →
        ∃ keys slot, whole.Spelt keys slot ∧
          (∀ keys' x e, keys' ≠ [] → t.Reaches root keys' x → whole.Part keys' e → ∃ box,
            attr x "absolute_bounding_box" t = .ok (.box box) ∧
              (box.Covers (Position.start.along before) ↔ endsPlainly keys' = true ∧ keys' <+: keys)) ∧
          (t.Respaced root keys ∨ ∃ n, t.Reaches root keys (.node n) ∧
            call (.view w) "find_by_position" (.ofList [(Position.start.along before).toValue]) p t =
              .ok (.node (t.goal n slot.word)) t) := by
  obtain ⟨root',height,hdoc⟩ := newDocument_rooted h
  obtain ⟨-,ds,root,-,-,hbehind,hwritten,hwhole⟩ := newDocument_written h
  obtain rfl : root = root' := Value.list.inj (Except.ok.inj (hbehind.symm.trans hdoc.rooted))
  refine ⟨root,_,hbehind,hwhole,fun before letter after hchar hletter => ?_⟩
  have hrender := (textOf_ok hwhole).mp htext
  obtain ⟨keys,slot,hspelt,hpath,hq⟩ := Datum.pathAt_spelt hrender hreturn hchar hletter rfl
  refine ⟨keys,slot,hspelt,fun keys' x e hkeys hx hpart => ?_,?_⟩
  · obtain ⟨box,hbox,hcovers⟩ := hpart.covers_iff hkeys hrender hreturn hchar hq
    refine ⟨box,hdoc.absolute_box hwhole hx hkeys hbox,hcovers.trans (and_congr_right fun hends => ?_)⟩
    rw [List.suffix_cons_iff,List.reverse_suffix]
    refine or_iff_right (fun heq => ?_)
    have heq' : keys' = keys ++ [.name slot.word] := by
      rw [← List.reverse_reverse keys',heq,List.reverse_cons,List.reverse_reverse]
    subst heq'
    rw [hspelt.no_part hpart] at hends
    cases hends
  · obtain ⟨fields,layout,howner,hlayout,hslot,hspells,-⟩ := id hspelt
    rcases hdoc.part_reached hlayout howner rfl .root hwritten with ⟨n,hn,hnode⟩ | hspaced
    · refine .inr ⟨n,hn,?_⟩
      obtain ⟨j,rest,rfl⟩ : ∃ j rest, keys = .index j :: rest := by
        cases howner
        exact ⟨_,_,rfl⟩
      obtain ⟨i,c,hc⟩ : ∃ i c, t.Stands (t.Tree i) n c := by
        have htree := hdoc.member ((hn.member hdoc).1 n rfl)
        obtain ⟨i,rfl⟩ := htree.succ
        exact ⟨i,htree⟩
      cases hlayout.symm.trans (hnode.layout hc.cell)
      obtain ⟨hfollow,keys',hgoal⟩ := hdoc.follow_goal hn hc.cell hslot hspells
      obtain ⟨-,-,-,hleads⟩ | _ := hdoc.reaches hn
      have hway : follow (.list root) ((.index j :: (rest ++ [.name slot.word])).map Key.toValue) t =
          .ok (some (.node (t.goal n slot.word))) := by
        rw [← hfollow,← hleads,List.nil_append,← List.cons_append,List.map_append]
        rfl
      exact hdoc.call_find_by_position hwhole hpath hway ((hdoc.reaches hgoal).route hdoc.depth).1
    · exact .inl hspaced

/-- A parser that takes every text for a context with an alias and a line end. -/
def aliasLineParser : Parser := fun _ => .ok (.list [aliasedContext,lineEnd ""])

/-- Asked for the keyword of `a as b`, the document gives the alias, which is what the keyword leads to. -/
theorem find_by_position_goal_alias : ∃ w t root whole keys slot n,
    newDocument "a as b\n" aliasLineParser .empty = .ok (.view w) t ∧ snapshot (.view w) t = .ok whole ∧ whole.Spelt keys slot ∧
    t.Reaches root keys (.node n) ∧ t.goal n slot.word = ⟨4⟩ ∧ (textOf (.node ⟨4⟩) t).toOption = some "b" ∧
    call (.view w) "find_by_position" (.ofList [(⟨1,3⟩ : Position).toValue]) aliasLineParser t = .ok (.node ⟨4⟩) t := by
  have hruns : (newDocument "a as b\n").ensures aliasLineParser .empty (fun v t => (textOf v t).toOption = some "a as b\n" ∧
      t.lists.all (fun lc => lc.flavour != .plain) = true ∧ (textOf (.node ⟨4⟩) t).toOption = some "b" ∧
      (findAtPosition v (⟨1,3⟩ : Position).toValue).ensures aliasLineParser t (fun r _ => r.is (.node ⟨4⟩)) = true) = true := by
    decide +kernel
  obtain ⟨v,t,h,hfacts⟩ := Edit.ensures_iff.mp hruns
  obtain ⟨w,_,_,rfl,hdoc⟩ := newDocument_document h
  obtain ⟨htext,hlists,halias,hfound⟩ := of_decide_eq_true hfacts
  obtain ⟨text,htext,rfl⟩ : ∃ text, textOf (.view w) t = .ok text ∧ text = "a as b\n" := by
    cases htext' : textOf (.view w) t with
    | ok text =>
      rw [htext'] at htext
      exact ⟨text,rfl,Option.some.inj htext⟩
    | error fault =>
      rw [htext'] at htext
      cases htext
  obtain ⟨root,whole,-,hwhole,hall⟩ := find_by_position_goal h htext (by decide +kernel)
  obtain ⟨keys,slot,hspelt,-,hspaced | ⟨n,hn,hcall⟩⟩ := hall "a ".toList 'a' "s b\n".toList (by decide +kernel) (by decide)
  · -- No list of spaces was made anew.
    obtain ⟨_,_,_,_,_,l,lc,-,-,-,-,hl,hplain⟩ := hspaced
    have := Array.all_eq_true_iff_forall_mem.mp hlists lc (Array.mem_of_getElem? hl)
    rw [hplain] at this
    cases this
  · obtain ⟨_,_,hfind,hgoal⟩ := Edit.ensures_iff.mp hfound
    have hcall : findAtPosition (.view w) (⟨1,3⟩ : Position).toValue aliasLineParser t = .ok (.node (t.goal n slot.word)) t :=
      (hdoc.call_position ⟨1,3⟩).symm.trans hcall
    cases hcall.symm.trans hfind
    obtain hgoal : t.goal n slot.word = ⟨4⟩ := by simpa [Value.is] using hgoal
    exact ⟨w,t,root,whole,keys,slot,n,h,hwhole,hspelt,hn,hgoal,halias,by rw [hdoc.call_position,hcall,hgoal]⟩

end Asking

end CodeTree
