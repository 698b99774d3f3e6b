import Mathlib.Algebra.Group.Nat.Defs
import Mathlib.Data.Nat.Basic
import CodeTree.Text.Integer

/-! # Numerals

An integer written in decimal digits is read back as itself, as long as it has no more digits than are read. What was
read from a text never has more.
-/
namespace CodeTree.Text

theorem digit_of_isDigit {c : Char} (h : c.isDigit = true) : digit? c = some (c.toNat - 48) := by
  have hbound : c.toNat ≤ 57 := by
    simp only [Char.isDigit,Bool.and_eq_true,decide_eq_true_eq] at h
    exact h.2
  unfold digit?
  rw [if_pos (by omega),if_pos h]

theorem digits_of_isDigit {cs : List Char} (h : ∀ c ∈ cs, c.isDigit = true) (hne : cs ≠ []) :
    digits? cs = some (cs.map (fun c => c.toNat - 48)) := by
  fun_induction digits? cs with
  | case1 => exact absurd rfl hne
  | case2 c =>
    rw [digit_of_isDigit (h c List.mem_cons_self)]
    rfl
  | case3 | case4 => exact absurd (h '_' (by simp)) (by decide)
  | case5 c rest hnil _ d ds hrest hc ih =>
    rw [ih (List.forall_mem_cons.mp h).2 (fun heq => hnil heq)] at hrest
    rw [digit_of_isDigit (h c List.mem_cons_self)] at hc
    cases hc
    cases hrest
    rfl
  | case6 c rest hnil _ hnone ih =>
    exact absurd (ih (List.forall_mem_cons.mp h).2 (fun heq => hnil heq))
      (hnone _ _ (digit_of_isDigit (h c List.mem_cons_self)))

theorem natural_toDigits {n : Nat} (h : (Nat.toDigits 10 n).length ≤ 4300) : natural? (Nat.toDigits 10 n) = some n := by
  have hdigits : ∀ c ∈ Nat.toDigits 10 n, c.isDigit = true := fun c hc =>
    Nat.isDigit_of_mem_toDigits (by decide) (by decide) hc
  have hvalue : (Nat.toDigits 10 n).foldl (fun m c => 10 * m + (c.toNat - 48)) 0 = n :=
    Nat.ofDigitChars_toDigits (b := 10) (by decide) (by decide)
  unfold natural?
  rw [digits_of_isDigit hdigits Nat.toDigits_ne_nil]
  simp only [List.length_map,if_pos h,List.foldl_map,hvalue]

theorem not_isBlank_of_isDigit {c : Char} (h : c.isDigit = true) : isBlank c = false := by
  have hbounds : 48 ≤ c.toNat ∧ c.toNat ≤ 57 := by
    simp only [Char.isDigit,Bool.and_eq_true,decide_eq_true_eq] at h
    exact h
  have hlarge : ∀ {a b : Nat}, 57 < a ∨ b < 48 → (decide (a ≤ c.toNat) && decide (c.toNat ≤ b)) = false := by
    intro a b hab
    rw [Bool.and_eq_false_iff,decide_eq_false_iff_not,decide_eq_false_iff_not]
    omega
  simp [isBlank,inRanges,hlarge]

theorem dropBlanks_eq {cs : List Char} (h : ∀ c ∈ cs.head?, isBlank c = false) : dropBlanks cs = cs := by
  cases cs with
  | nil => rfl
  | cons c rest => exact List.dropWhile_cons_of_neg (by simp [h c rfl])

theorem strip_eq {s : String} (hfirst : ∀ c ∈ s.toList.head?, isBlank c = false)
    (hlast : ∀ c ∈ s.toList.getLast?, isBlank c = false) : strip s = s := by
  have hright : stripRight s = s := by
    unfold stripRight
    rw [dropBlanks_eq (by rwa [List.head?_reverse]),List.reverse_reverse,String.ofList_toList]
  unfold strip stripLeft
  rw [hright,dropBlanks_eq hfirst,String.ofList_toList]

/-- An integer whose digits are not too many is read back from its text. -/
theorem integer_toString {i : Int} (h : (Nat.toDigits 10 i.natAbs).length ≤ 4300) : integer? (toString i) = some i := by
  have hdigit : ∀ n, ∀ c ∈ Nat.toDigits 10 n, c.isDigit = true := fun n c hc =>
    Nat.isDigit_of_mem_toDigits (by decide) (by decide) hc
  have hlast : ∀ n, ∀ c ∈ (Nat.toDigits 10 n).getLast?, isBlank c = false := fun n c hc =>
    not_isBlank_of_isDigit (hdigit n c (List.mem_of_mem_getLast? hc))
  cases i with
  | ofNat n =>
    have htext : (toString (Int.ofNat n)).toList = Nat.toDigits 10 n := Nat.toList_repr
    have hstrip : strip (toString (Int.ofNat n)) = toString (Int.ofNat n) := by
      refine strip_eq ?_ ?_ <;> rw [htext] <;> intro c hc
      · exact not_isBlank_of_isDigit (hdigit n c (List.mem_of_mem_head? hc))
      · exact hlast n c hc
    unfold integer?
    rw [hstrip,htext]
    -- Neither sign is a digit.
    split
    · next heq => exact absurd (hdigit n '-' (heq ▸ List.mem_cons_self)) (by decide)
    · next heq => exact absurd (hdigit n '+' (heq ▸ List.mem_cons_self)) (by decide)
    · have hvalue : natural? (Nat.toDigits 10 n) = some n := natural_toDigits h
      rw [hvalue]
      rfl
  | negSucc n =>
    have htext : (toString (Int.negSucc n)).toList = '-' :: Nat.toDigits 10 (n + 1) := by
      change ("-" ++ (n + 1).repr).toList = _
      rw [String.toList_append,Nat.toList_repr]
      rfl
    have hstrip : strip (toString (Int.negSucc n)) = toString (Int.negSucc n) := by
      refine strip_eq ?_ ?_ <;> rw [htext] <;> intro c hc
      · cases hc
        decide
      · rw [List.getLast?_cons_of_ne_nil Nat.toDigits_ne_nil] at hc
        exact hlast (n + 1) c hc
    unfold integer?
    have hvalue : natural? (Nat.toDigits 10 (n + 1)) = some (n + 1) := natural_toDigits h
    rw [hstrip,htext]
    split
    · next heq =>
      obtain rfl := (List.cons.inj heq).2
      rw [hvalue]
      rfl
    · next heq => exact absurd (List.cons.inj heq).1 (by decide)
    · next hsign _ => exact absurd rfl (hsign _)

theorem digit_lt {c : Char} {d : Nat} (h : digit? c = some d) : d < 10 := by
  unfold digit? at h
  split at h
  · split at h
    · next hdigit =>
      cases h
      simp only [Char.isDigit,Bool.and_eq_true,decide_eq_true_eq] at hdigit
      have hbound : c.toNat ≤ 57 := hdigit.2
      omega
    · cases h
  · obtain ⟨z,hz,rfl⟩ := Option.map_eq_some_iff.mp h
    have hzero := List.find?_some hz
    simp only [Bool.and_eq_true,decide_eq_true_eq] at hzero
    omega

theorem digits_lt {cs : List Char} {ds : List Nat} (h : digits? cs = some ds) : ∀ d ∈ ds, d < 10 := by
  fun_induction digits? cs generalizing ds with
  | case1 => cases h
  | case2 c =>
    obtain ⟨d,hd,rfl⟩ := Option.map_eq_some_iff.mp h
    simpa using digit_lt hd
  | case3 c rest d ds' hrest hc ih =>
    cases h
    exact List.forall_mem_cons.mpr ⟨digit_lt hc,ih hrest⟩
  | case4 => cases h
  | case5 c rest _ _ d ds' hrest hc ih =>
    cases h
    exact List.forall_mem_cons.mpr ⟨digit_lt hc,ih hrest⟩
  | case6 => cases h

theorem foldl_digits_lt {ds : List Nat} (h : ∀ d ∈ ds, d < 10) (n : Nat) :
    ds.foldl (fun n d => 10 * n + d) n < 10 ^ ds.length * (n + 1) := by
  induction ds generalizing n with
  | nil => simp
  | cons d ds ih =>
    have hd := h d List.mem_cons_self
    calc (d :: ds).foldl (fun n d => 10 * n + d) n < 10 ^ ds.length * (10 * n + d + 1) :=
          ih (List.forall_mem_cons.mp h).2 _
      _ ≤ 10 ^ ds.length * (10 * (n + 1)) := Nat.mul_le_mul_left _ (by omega)
      _ = 10 ^ (d :: ds).length * (n + 1) := by rw [List.length_cons,Nat.pow_succ,Nat.mul_assoc]

theorem natural_length {cs : List Char} {n : Nat} (h : natural? cs = some n) : (Nat.toDigits 10 n).length ≤ 4300 := by
  unfold natural? at h
  split at h
  · cases h
  · next ds hds =>
    split at h
    · next hlength =>
      cases h
      rw [Nat.length_toDigits_le_iff (by decide) (by decide)]
      calc ds.foldl (fun n d => 10 * n + d) 0 < 10 ^ ds.length * (0 + 1) := foldl_digits_lt (digits_lt hds) 0
        _ = 10 ^ ds.length := by rw [Nat.zero_add,Nat.mul_one]
        _ ≤ 10 ^ 4300 := Nat.pow_le_pow_right (by decide) hlength
    · cases h

theorem integer_length {s : String} {i : Int} (h : integer? s = some i) :
    (Nat.toDigits 10 i.natAbs).length ≤ 4300 := by
  unfold integer? at h
  split at h
  all_goals
    obtain ⟨_,hcast,rfl⟩ := Option.map_eq_some_iff.mp h
    obtain ⟨n,hn,heq⟩ := Option.bind_eq_some_iff.mp hcast
    obtain rfl := Option.some.inj heq
  · rw [Int.natAbs_neg,Int.natAbs_natCast]
    exact natural_length hn
  · rw [Int.natAbs_natCast]
    exact natural_length hn
  · rw [Int.natAbs_natCast]
    exact natural_length hn

end CodeTree.Text
