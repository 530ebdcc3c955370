import Mathlib.Data.List.Basic

/-!
# Codes that are read from the left

A code can be decoded when a text that starts with a code word starts with no
other one, so that the rest of the text is known as well.  Sequences of code
words between separators can then be decoded up to the sign that ends them.
-/

namespace Trun

universe u v

variable {α β : Type u} {γ : Type v}

/-- A text has at most one code word at its start. -/
def Decodable (encode : α → List γ) : Prop :=
  ∀ a b x y, encode a ++ x = encode b ++ y → a = b ∧ x = y

/-- No code word starts with the sign, and none is empty. -/
def Avoids (encode : α → List γ) (stop : γ) : Prop :=
  ∀ a x y, encode a ++ x ≠ stop :: y

namespace Decodable

variable {encode : α → List γ} {stop sep : γ}

theorem injective (hencode : Decodable encode) : Function.Injective encode := by
  intro a b heq
  have hpadded : encode a ++ [] = encode b ++ [] := by rw [heq]
  exact (hencode a b [] [] hpadded).1

/-- Two code words, one after the other. -/
theorem pair {other : β → List γ} (hencode : Decodable encode) (hother : Decodable other) :
    Decodable fun entry : α × β => encode entry.1 ++ other entry.2 := by
  rintro ⟨a, b⟩ ⟨c, d⟩ x y heq
  rw [List.append_assoc, List.append_assoc] at heq
  obtain ⟨rfl, hrest⟩ := hencode a c _ _ heq
  obtain ⟨rfl, rfl⟩ := hother b d _ _ hrest
  exact ⟨rfl, rfl⟩

/-- The same sign in front of every code word. -/
theorem cons (hencode : Decodable encode) (sign : γ) : Decodable fun a => sign :: encode a := by
  intro a b x y heq
  exact hencode a b x y (List.cons.inj heq).2

/-- Code words one after the other, up to the end sign. -/
theorem flatMap (hencode : Decodable encode) (hstop : Avoids encode stop) :
    Decodable fun items : List α => items.flatMap encode ++ [stop] := by
  intro items others x y heq
  rw [List.append_assoc, List.append_assoc, List.singleton_append, List.singleton_append] at heq
  induction items generalizing others with
  | nil =>
      cases others with
      | nil => exact ⟨rfl, (List.cons.inj heq).2⟩
      | cons other others =>
          rw [List.flatMap_cons, List.append_assoc] at heq
          exact absurd heq.symm (hstop other _ _)
  | cons item items ih =>
      cases others with
      | nil =>
          rw [List.flatMap_cons, List.append_assoc] at heq
          exact absurd heq (hstop item _ _)
      | cons other others =>
          rw [List.flatMap_cons, List.flatMap_cons, List.append_assoc, List.append_assoc] at heq
          obtain ⟨rfl, hrest⟩ := hencode item other _ _ heq
          obtain ⟨rfl, rfl⟩ := ih others hrest
          exact ⟨rfl, rfl⟩

/-- Every code word but the first has the separator in front of it. -/
theorem intercalate_eq_flatMap (encode : α → List γ) (sep : γ) (item : α) (items : List α) :
    [sep].intercalate ((item :: items).map encode) =
      encode item ++ items.flatMap fun other => sep :: encode other := by
  induction items generalizing item with
  | nil => simp
  | cons other items ih =>
      rw [List.map_cons, List.map_cons, List.intercalate_cons_cons, ← List.map_cons, ih,
        List.flatMap_cons]
      simp

/-- Code words with separators between them, up to the end sign. -/
theorem intercalate (hencode : Decodable encode) (hstop : Avoids encode stop) (hsep : sep ≠ stop) :
    Decodable fun items : List α => [sep].intercalate (items.map encode) ++ [stop] := by
  have hrest : Decodable fun items : List α =>
      (items.flatMap fun other => sep :: encode other) ++ [stop] := by
    apply (hencode.cons sep).flatMap
    intro a x y heq
    exact hsep (List.cons.inj heq).1
  intro items others x y heq
  cases items with
  | nil =>
      cases others with
      | nil => exact ⟨rfl, (List.cons.inj heq).2⟩
      | cons other others =>
          dsimp only at heq
          rw [intercalate_eq_flatMap, List.append_assoc (encode other),
            List.append_assoc (encode other)] at heq
          exact absurd heq.symm (hstop other _ _)
  | cons item items =>
      cases others with
      | nil =>
          dsimp only at heq
          rw [intercalate_eq_flatMap, List.append_assoc (encode item),
            List.append_assoc (encode item)] at heq
          exact absurd heq (hstop item _ _)
      | cons other others =>
          dsimp only at heq
          rw [intercalate_eq_flatMap, intercalate_eq_flatMap, List.append_assoc (encode item),
            List.append_assoc (encode other)] at heq
          obtain ⟨hpair, hend⟩ := hencode.pair hrest (item, items) (other, others) x y heq
          obtain ⟨rfl, rfl⟩ := Prod.mk.inj hpair
          exact ⟨rfl, hend⟩

end Decodable

end Trun
