import Trun.Program.Codes

/-!
# `json.dumps` of names with texts

The text of a dictionary from strings to strings, with `separators=(',', ':')`
and the default `ensure_ascii`.  Texts are sequences of Unicode scalar values,
so that no escape of two surrogates stands for anything but one character.
-/

namespace Trun.Json

/-- Four hexadecimal digits. -/
def hex4 (n : ℕ) : List Char :=
  [Nat.digitChar (n / 4096 % 16), Nat.digitChar (n / 256 % 16), Nat.digitChar (n / 16 % 16),
    Nat.digitChar (n % 16)]

/-- The characters with an escape of two characters, each with its letter. -/
def escapes : List (Char × Char) :=
  [('"', '"'), ('\\', '\\'), ('\n', 'n'), ('\r', 'r'), ('\t', 't'), ('\x0c', 'f'), ('\x08', 'b')]

/-- `ESCAPE_ASCII.sub(replace, c)`. -/
def escapeChar (c : Char) : List Char :=
  match escapes.lookup c with
  | some letter => ['\\', letter]
  | none =>
    if ' ' ≤ c ∧ c ≤ '~' then [c]
    else if c.toNat < 65536 then '\\' :: 'u' :: hex4 c.toNat
    else
      '\\' :: 'u' :: hex4 (55296 + (c.toNat - 65536) / 1024) ++
        '\\' :: 'u' :: hex4 (56320 + (c.toNat - 65536) % 1024)

/-- `py_encode_basestring_ascii`. -/
def encodeString (text : String) : List Char :=
  '"' :: (text.toList.flatMap escapeChar ++ ['"'])

/-- `json.dumps`; the entries come in the order in which they are given. -/
def dumps (params : List (String × String)) : String :=
  String.ofList ('\x7b' :: ([','].intercalate
    (params.map fun entry => encodeString entry.1 ++ ':' :: encodeString entry.2) ++ ['\x7d']))

example : dumps [("x", "a\"\n"), ("y", "é😀")] =
    "\x7b\"x\":\"a\\\"\\n\",\"y\":\"\\u00e9\\ud83d\\ude00\"\x7d" := by decide

/-! ## No two characters look alike -/

theorem hex4_injective {m n : ℕ} (hm : m < 65536) (hn : n < 65536) (heq : hex4 m = hex4 n) :
    m = n := by
  have hdigit : ∀ a < 16, ∀ b < 16, Nat.digitChar a = Nat.digitChar b → a = b := by decide
  simp only [hex4, List.cons.injEq, and_true] at heq
  obtain ⟨h4, h3, h2, h1⟩ := heq
  have h4 := hdigit _ (Nat.mod_lt _ (by decide)) _ (Nat.mod_lt _ (by decide)) h4
  have h3 := hdigit _ (Nat.mod_lt _ (by decide)) _ (Nat.mod_lt _ (by decide)) h3
  have h2 := hdigit _ (Nat.mod_lt _ (by decide)) _ (Nat.mod_lt _ (by decide)) h2
  have h1 := hdigit _ (Nat.mod_lt _ (by decide)) _ (Nat.mod_lt _ (by decide)) h1
  omega

theorem mem_escapes {c letter : Char} (hlookup : escapes.lookup c = some letter) :
    (c, letter) ∈ escapes := by
  obtain ⟨front, back, heq, -⟩ := List.lookup_eq_some_iff.mp hlookup
  rw [heq]
  exact List.mem_append_right _ (List.mem_cons_self ..)

theorem escapes_injective {c d letter : Char} (hc : escapes.lookup c = some letter)
    (hd : escapes.lookup d = some letter) : c = d := by
  have hinj : ∀ entry ∈ escapes, ∀ other ∈ escapes, entry.2 = other.2 → entry.1 = other.1 := by
    decide
  exact hinj _ (mem_escapes hc) _ (mem_escapes hd) rfl

theorem escapes_ne_u {c letter : Char} (hc : escapes.lookup c = some letter) : letter ≠ 'u' := by
  have hletter : ∀ entry ∈ escapes, entry.2 ≠ 'u' := by decide
  exact hletter _ (mem_escapes hc)

/-- A character that is no surrogate half. -/
theorem toNat_not_surrogate (c : Char) : c.toNat < 55296 ∨ 57343 < c.toNat ∧ c.toNat < 1114112 :=
  c.valid

/-- How a character is written. -/
theorem escapeChar_cases (c : Char) :
    (∃ letter, escapes.lookup c = some letter ∧ escapeChar c = ['\\', letter]) ∨
      (c ≠ '\\' ∧ c ≠ '"' ∧ escapeChar c = [c]) ∨
      (c.toNat < 65536 ∧ escapeChar c = '\\' :: 'u' :: hex4 c.toNat) ∨
      (65536 ≤ c.toNat ∧ escapeChar c = '\\' :: 'u' :: hex4 (55296 + (c.toNat - 65536) / 1024) ++
        '\\' :: 'u' :: hex4 (56320 + (c.toNat - 65536) % 1024)) := by
  unfold escapeChar
  cases hshort : escapes.lookup c with
  | some letter => exact .inl ⟨letter, rfl, rfl⟩
  | none =>
      right
      have hquote : c ≠ '"' := by
        rintro rfl
        cases hshort
      have hslash : c ≠ '\\' := by
        rintro rfl
        cases hshort
      dsimp only
      split_ifs with hplain hbmp
      · exact .inl ⟨hslash, hquote, rfl⟩
      · exact .inr (.inl ⟨hbmp, rfl⟩)
      · exact .inr (.inr ⟨Nat.not_lt.mp hbmp, rfl⟩)

theorem hex4_append {m n : ℕ} {x y : List Char} (hm : m < 65536) (hn : n < 65536)
    (heq : hex4 m ++ x = hex4 n ++ y) : m = n ∧ x = y := by
  obtain ⟨hdigits, hrest⟩ := List.append_inj heq rfl
  exact ⟨hex4_injective hm hn hdigits, hrest⟩

theorem decodable_escapeChar : Decodable escapeChar := by
  intro c d x y heq
  have hc := toNat_not_surrogate c
  have hd := toNat_not_surrogate d
  rcases escapeChar_cases c with ⟨letter, hshort, hcode⟩ | ⟨hslash, -, hcode⟩ | ⟨hbmp, hcode⟩ |
    ⟨habove, hcode⟩ <;>
  rcases escapeChar_cases d with ⟨letter', hshort', hcode'⟩ | ⟨hslash', -, hcode'⟩ |
    ⟨hbmp', hcode'⟩ | ⟨habove', hcode'⟩ <;>
  rw [hcode, hcode'] at heq
  · obtain ⟨rfl, hrest⟩ := List.cons.inj (List.cons.inj heq).2
    exact ⟨escapes_injective hshort hshort', hrest⟩
  · exact absurd (List.cons.inj heq).1.symm hslash'
  · exact absurd (List.cons.inj (List.cons.inj heq).2).1 (escapes_ne_u hshort)
  · exact absurd (List.cons.inj (List.cons.inj heq).2).1 (escapes_ne_u hshort)
  · exact absurd (List.cons.inj heq).1 hslash
  · obtain ⟨rfl, hrest⟩ := List.cons.inj heq
    exact ⟨rfl, hrest⟩
  · exact absurd (List.cons.inj heq).1 hslash
  · exact absurd (List.cons.inj heq).1 hslash
  · exact absurd (List.cons.inj (List.cons.inj heq).2).1.symm (escapes_ne_u hshort')
  · exact absurd (List.cons.inj heq).1.symm hslash'
  · obtain ⟨hcode, hrest⟩ := hex4_append hbmp hbmp' (List.cons.inj (List.cons.inj heq).2).2
    exact ⟨Char.toNat_inj.mp hcode, hrest⟩
  · obtain ⟨hcode, -⟩ := hex4_append hbmp (by omega) (List.cons.inj (List.cons.inj heq).2).2
    omega
  · exact absurd (List.cons.inj (List.cons.inj heq).2).1.symm (escapes_ne_u hshort')
  · exact absurd (List.cons.inj heq).1.symm hslash'
  · obtain ⟨hcode, -⟩ := hex4_append (by omega) hbmp' (List.cons.inj (List.cons.inj heq).2).2
    omega
  · obtain ⟨hhigh, hrest⟩ := hex4_append (by omega) (by omega)
      (List.cons.inj (List.cons.inj heq).2).2
    obtain ⟨hlow, hrest⟩ := hex4_append (by omega) (by omega)
      (List.cons.inj (List.cons.inj hrest).2).2
    exact ⟨Char.toNat_inj.mp (by omega), hrest⟩

/-- A quotation mark ends a text. -/
theorem avoids_escapeChar : Avoids escapeChar '"' := by
  intro c x y heq
  rcases escapeChar_cases c with ⟨letter, -, hcode⟩ | ⟨-, hquote, hcode⟩ | ⟨-, hcode⟩ |
    ⟨-, hcode⟩ <;>
  rw [hcode] at heq
  · exact absurd (List.cons.inj heq).1 (by decide)
  · exact hquote (List.cons.inj heq).1
  · exact absurd (List.cons.inj heq).1 (by decide)
  · exact absurd (List.cons.inj heq).1 (by decide)

theorem decodable_encodeString : Decodable encodeString := by
  intro text other x y heq
  obtain ⟨htext, hrest⟩ :=
    ((decodable_escapeChar.flatMap avoids_escapeChar).cons '"') text.toList other.toList x y heq
  exact ⟨String.toList_injective htext, hrest⟩

/-- Different lists of entries have different texts. -/
theorem dumps_injective : Function.Injective dumps := by
  intro params others heq
  have hentry : Decodable fun entry : String × String =>
      encodeString entry.1 ++ ':' :: encodeString entry.2 :=
    decodable_encodeString.pair (decodable_encodeString.cons ':')
  have hstop : Avoids (fun entry : String × String =>
      encodeString entry.1 ++ ':' :: encodeString entry.2) '\x7d' := by
    intro entry x y heq
    exact absurd (List.cons.inj heq).1 (by decide)
  have hlists := String.ofList_injective heq
  exact (hentry.intercalate hstop (by decide)).injective (List.cons.inj hlists).2

end Trun.Json
