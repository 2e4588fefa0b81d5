import JavaSyntax.Text.Quoted

namespace JavaSyntax.Text

/-- What is written for a value tells the value and where it ends, whatever is written behind it. -/
def SelfDelimiting {α : Type} (write : α → List Char) : Prop :=
  ∀ ⦃a b : α⦄ ⦃r s : List Char⦄, write a ++ r = write b ++ s → a = b ∧ r = s

/-- Values whose texts tell them can be written one behind the other. -/
theorem SelfDelimiting.flatMap_inj {α : Type} {write : α → List Char} (h : SelfDelimiting write)
    (hne : ∀ a, write a ≠ []) {xs ys : List α} (hxs : xs.flatMap write = ys.flatMap write) : xs = ys := by
  induction xs generalizing ys with
  | nil =>
    cases ys with
    | nil => rfl
    | cons y ys =>
      rw [List.flatMap_nil, List.flatMap_cons] at hxs
      exact absurd (List.append_eq_nil_iff.mp hxs.symm).1 (hne y)
  | cons x xs ih =>
    cases ys with
    | nil =>
      rw [List.flatMap_nil, List.flatMap_cons] at hxs
      exact absurd (List.append_eq_nil_iff.mp hxs).1 (hne x)
    | cons y ys =>
      rw [List.flatMap_cons, List.flatMap_cons] at hxs
      obtain ⟨hfirst, hothers⟩ := h hxs
      rw [hfirst, ih hothers]

/-- A run of characters of one sort ends at the first character of another. -/
theorem append_cons_inj {P : Char → Bool} {xs ys r s : List Char} {a b : Char}
    (hxs : ∀ c ∈ xs, P c = true) (hys : ∀ c ∈ ys, P c = true) (ha : P a = false) (hb : P b = false)
    (h : xs ++ a :: r = ys ++ b :: s) : xs = ys ∧ a = b ∧ r = s := by
  have hrun := congrArg (List.takeWhile P) h
  rw [List.takeWhile_append_of_pos hxs, List.takeWhile_append_of_pos hys,
    List.takeWhile_cons_of_neg (by rw [ha]; exact Bool.false_ne_true),
    List.takeWhile_cons_of_neg (by rw [hb]; exact Bool.false_ne_true), List.append_nil,
    List.append_nil] at hrun
  rw [hrun, List.append_cancel_left_eq, List.cons.injEq] at h
  exact ⟨hrun, h⟩

section Numerals

variable {b n m : Nat}

theorem exists_digit_of_mem_toDigits (hb : 1 < b) {c : Char} (h : c ∈ Nat.toDigits b n) :
    ∃ d < b, c = Nat.digitChar d := by
  induction n using Nat.strongRecOn with
  | ind n ih =>
    rcases Nat.lt_or_ge n b with hn | hn
    · rw [Nat.toDigits_of_lt_base hn] at h
      exact ⟨n, hn, List.mem_singleton.mp h⟩
    · rw [Nat.toDigits_of_base_le hb hn] at h
      rcases List.mem_append.mp h with h | h
      · exact ih (n / b) (Nat.div_lt_self (by omega) hb) h
      · exact ⟨n % b, Nat.mod_lt n (by omega), List.mem_singleton.mp h⟩

theorem digitChar_inj : ∀ d < 16, ∀ e < 16, Nat.digitChar d = Nat.digitChar e → d = e := by decide

/-- A numeral tells its number. -/
theorem toDigits_inj (hb : 1 < b) (hle : b ≤ 16) (h : Nat.toDigits b n = Nat.toDigits b m) : n = m := by
  induction n using Nat.strongRecOn generalizing m with
  | ind n ih =>
    -- A number with one digit and one with more differ in the length of their numerals.
    have hlong {k : Nat} {c : Char} (hk : b ≤ k) (hc : Nat.toDigits b k = [c]) : False := by
      rw [Nat.toDigits_of_base_le hb hk, List.append_eq_singleton_iff] at hc
      rcases hc with ⟨hnil, _⟩ | ⟨_, hnil⟩
      · exact Nat.toDigits_ne_nil hnil
      · cases hnil
    rcases Nat.lt_or_ge n b with hn | hn
    · rw [Nat.toDigits_of_lt_base hn] at h
      rcases Nat.lt_or_ge m b with hm | hm
      · rw [Nat.toDigits_of_lt_base hm, List.singleton_inj] at h
        exact digitChar_inj n (by omega) m (by omega) h
      · exact (hlong hm h.symm).elim
    · rcases Nat.lt_or_ge m b with hm | hm
      · rw [Nat.toDigits_of_lt_base hm] at h
        exact (hlong hn h).elim
      · rw [Nat.toDigits_of_base_le hb hn, Nat.toDigits_of_base_le hb hm] at h
        obtain ⟨hfront, hlast⟩ := List.append_inj' h rfl
        have hdiv := ih (n / b) (Nat.div_lt_self (by omega) hb) hfront
        have hbound {k : Nat} : k % b < 16 := Nat.lt_of_lt_of_le (Nat.mod_lt k (by omega)) hle
        have hmod := digitChar_inj _ hbound _ hbound (List.singleton_inj.mp hlast)
        rw [← Nat.div_add_mod n b, hdiv, hmod, Nat.div_add_mod]

/-- A decimal numeral ends at the first character that is no digit. -/
theorem numeral_cons_inj {r s : List Char} {c d : Char} (hc : c.isDigit = false) (hd : d.isDigit = false)
    (h : (toString n).toList ++ c :: r = (toString m).toList ++ d :: s) : n = m ∧ c = d ∧ r = s := by
  have hdigits (k : Nat) : ∀ x ∈ (toString k).toList, x.isDigit = true := by
    intro x hx
    rw [Nat.toString_eq_ofList_toDigits, String.toList_ofList] at hx
    exact Nat.isDigit_of_mem_toDigits (by decide) (by decide) hx
  obtain ⟨hn, hrest⟩ := append_cons_inj (hdigits n) (hdigits m) hc hd h
  rw [Nat.toString_eq_ofList_toDigits, Nat.toString_eq_ofList_toDigits, String.toList_ofList,
    String.toList_ofList] at hn
  exact ⟨toDigits_inj (by decide) (by decide) hn, hrest⟩

end Numerals

/-- The character that a letter behind a backslash stands for. -/
def escaped? : Char → Option Char
  | '"' => some '"'
  | '\\' => some '\\'
  | 't' => some '\t'
  | 'r' => some '\r'
  | 'n' => some '\n'
  | '0' => some '\x00'
  | _ => none

/-- A character in quotes is a letter behind a backslash, itself, or a number in braces. -/
theorem escape_cases (c : Char) :
    (∃ l, escape c = ['\\', l] ∧ escaped? l = some c) ∨
      (escape c = [c] ∧ c ≠ '\\' ∧ c ≠ '"') ∨
        escape c = '\\' :: 'u' :: '\x7b' :: (Nat.toDigits 16 c.toNat ++ ['\x7d']) := by
  rw [escape]
  split
  · next h => exact .inl ⟨'"', rfl, by rw [h]; rfl⟩
  · next hquote =>
    split
    · next h => exact .inl ⟨'\\', rfl, by rw [h]; rfl⟩
    · next hbackslash =>
      split
      · next h => exact .inl ⟨'t', rfl, by rw [h]; rfl⟩
      · split
        · next h => exact .inl ⟨'r', rfl, by rw [h]; rfl⟩
        · split
          · next h => exact .inl ⟨'n', rfl, by rw [h]; rfl⟩
          · split
            · next h => exact .inl ⟨'0', rfl, by rw [h]; rfl⟩
            · split
              · exact .inr (.inl ⟨rfl, hbackslash, hquote⟩)
              · exact .inr (.inr rfl)

theorem exists_head_escape (c : Char) : ∃ d cs, escape c = d :: cs ∧ d ≠ '"' := by
  rcases escape_cases c with ⟨l, h, _⟩ | ⟨h, _, hc⟩ | h
  · exact ⟨_, _, h, by decide⟩
  · exact ⟨_, _, h, hc⟩
  · exact ⟨_, _, h, by decide⟩

theorem selfDelimiting_escape : SelfDelimiting escape := by
  have hhex (n : Nat) : ∀ c ∈ Nat.toDigits 16 n, (c != '\x7d') = true := by
    have hbrace : ∀ d < 16, (Nat.digitChar d != '\x7d') = true := by decide
    intro c hc
    obtain ⟨d, hd, rfl⟩ := exists_digit_of_mem_toDigits (by decide) hc
    exact hbrace d hd
  intro a b r s h
  rcases escape_cases a with ⟨l, ha, hl⟩ | ⟨ha, hplain, _⟩ | ha <;>
    rcases escape_cases b with ⟨k, hb, hk⟩ | ⟨hb, hplain', _⟩ | hb <;> rw [ha, hb] at h
  · simp only [List.cons_append, List.nil_append, List.cons.injEq, true_and] at h
    obtain ⟨rfl, hrest⟩ := h
    exact ⟨Option.some.inj (hl.symm.trans hk), hrest⟩
  · exact absurd (List.cons.inj h).1.symm hplain'
  · obtain ⟨rfl, _⟩ := List.cons.inj (List.cons.inj h).2
    cases hl
  · exact absurd (List.cons.inj h).1 hplain
  · exact List.cons.inj h
  · exact absurd (List.cons.inj h).1 hplain
  · obtain ⟨rfl, _⟩ := List.cons.inj (List.cons.inj h).2
    cases hk
  · exact absurd (List.cons.inj h).1.symm hplain'
  · simp only [List.cons_append, List.cons.injEq, true_and, List.append_assoc, List.nil_append] at h
    obtain ⟨hdigits, _, hrest⟩ := append_cons_inj (hhex _) (hhex _) (by decide) (by decide) h
    exact ⟨Char.toNat_inj.mp (toDigits_inj (by decide) (by decide) hdigits), hrest⟩

/-- What is quoted ends at the first quote that is not escaped. -/
theorem flatMap_escape_inj {xs ys r s : List Char}
    (h : xs.flatMap escape ++ '"' :: r = ys.flatMap escape ++ '"' :: s) : xs = ys ∧ r = s := by
  induction xs generalizing ys with
  | nil =>
    cases ys with
    | nil => exact ⟨rfl, (List.cons.inj h).2⟩
    | cons y ys =>
      obtain ⟨d, cs, hy, hd⟩ := exists_head_escape y
      rw [List.flatMap_cons, hy] at h
      exact absurd (List.cons.inj h).1.symm hd
  | cons x xs ih =>
    cases ys with
    | nil =>
      obtain ⟨d, cs, hx, hd⟩ := exists_head_escape x
      rw [List.flatMap_cons, hx] at h
      exact absurd (List.cons.inj h).1 hd
    | cons y ys =>
      rw [List.flatMap_cons, List.flatMap_cons, List.append_assoc, List.append_assoc] at h
      obtain ⟨hfirst, hmore⟩ := selfDelimiting_escape h
      obtain ⟨hothers, hrest⟩ := ih hmore
      exact ⟨by rw [hfirst, hothers], hrest⟩

/-- A quoted text tells what it quotes and where it ends. -/
theorem selfDelimiting_quote : SelfDelimiting fun s => (quote s).toList := by
  intro a b r s h
  simp only [quote, String.toList_ofList, List.cons_append, List.append_assoc, List.nil_append,
    List.cons.injEq, true_and] at h
  obtain ⟨hchars, hrest⟩ := flatMap_escape_inj h
  exact ⟨String.toList_injective hchars, hrest⟩

end JavaSyntax.Text
