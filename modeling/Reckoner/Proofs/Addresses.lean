import Reckoner.Template.Expand

/-!
# Templates that show an address

A template shows the address of a wide number where a directive with the verb `p` uses the number,
and nowhere else: no other verb, and no complaint, depends on the address. So a template without
such a directive writes the same text wherever the number is stored. With one it does not: the
addresses one and two have as many digits as each other, so all that is in front of the first such
directive, and what it writes, stands at the same places, and is not the same.

Main statement: `Template.showsAddress_iff`.
-/

set_option autoImplicit false

namespace Reckoner

namespace Template

section

variable {precision : Nat} {x : Number} {stored : Thunk Stored}

/-- Only the verb `p` shows an address. -/
theorem verbText_of_ne {verb : Char} (h : verb ≠ 'p') (d : Directive) (a b : Nat) :
    verbText d verb (.wide precision x stored a) =
      verbText d verb (.wide precision x stored b) := by
  simp only [verbText, h, if_false]
  rfl

/-- A verb that does not use the number, or is another than `p`, shows no address. -/
theorem applyVerb_of_hidden {r : Reading} {verb : Char}
    (h : (verb = 'p' && usesNumber r verb) = false) (a b : Nat) :
    applyVerb r verb (.wide precision x stored a) =
      applyVerb r verb (.wide precision x stored b) := by
  unfold applyVerb
  split
  · rename_i huses
    have hverb : verb ≠ 'p' := by
      rintro rfl
      simp [huses] at h
    exact verbText_of_ne hverb r.directive a b
  · rfl

/-- Expanding the rest of a template that shows no address does not depend on the address. -/
theorem expandFrom_of_hidden {fuel argument : Nat} {reordered : Bool} {chars : List Char}
    (h : showsAddressFrom fuel argument reordered chars = false) (a b : Nat) :
    expandFrom (.wide precision x stored a) fuel argument reordered chars =
      expandFrom (.wide precision x stored b) fuel argument reordered chars := by
  induction fuel generalizing argument reordered chars with
  | zero => rfl
  | succ fuel ih =>
    rw [showsAddressFrom] at h
    rw [expandFrom, expandFrom]
    cases hbehind : chars.dropWhile (· ≠ '%') with
    | nil => rfl
    | cons percent behind =>
      simp only [hbehind] at h ⊢
      cases hrest : (Reading.ofChars argument reordered behind).rest with
      | nil => rfl
      | cons verb rest =>
        simp only [hrest, Bool.or_eq_false_iff] at h ⊢
        rw [applyVerb_of_hidden h.1 a b, ih h.2]

/-- The text of a template that shows no address does not depend on the address. -/
theorem expand_of_hidden {template : String} (h : showsAddress template = false) (a b : Nat) :
    expand template (.wide precision x stored a) = expand template (.wide precision x stored b) :=
  congrArg String.ofList (expandFrom_of_hidden h a b)

/-! ### Different addresses -/

/-- Texts of one length are padded to one length, and stay different. -/
theorem padWith_of_length_eq (d : Directive) (zeros : Bool) {s t : List Char}
    (h : s.length = t.length) :
    (d.padWith zeros s).length = (d.padWith zeros t).length ∧
      (d.padWith zeros s = d.padWith zeros t → s = t) := by
  unfold Directive.padWith
  dsimp only
  rw [h]
  split
  · exact ⟨by simp [h], List.append_cancel_right⟩
  · exact ⟨by simp [h], List.append_cancel_left⟩

/-- The addresses one and two have texts of one length that are different. -/
theorem addressText_one_two (d : Directive) :
    (addressText d 1).length = (addressText d 2).length ∧ addressText d 1 ≠ addressText d 2 := by
  have hone : Nat.toDigits 16 1 = ['1'] := rfl
  have htwo : Nat.toDigits 16 2 = ['2'] := rfl
  have hlength (front : List Char) : (front ++ ['1']).length = (front ++ ['2']).length := by
    simp
  simp only [addressText, wholeText, hone, htwo, Nat.reduceEqDiff, decide_false, Bool.and_false,
    Bool.false_eq_true, if_false, List.length_singleton]
  refine ⟨(padWith_of_length_eq _ _ (hlength _)).1, ?_⟩
  intro hsame
  have htexts := (padWith_of_length_eq _ _ (hlength _)).2 hsame
  exact absurd (List.append_cancel_left htexts) (by decide)

/-- What a verb writes for the addresses one and two has one length. -/
theorem length_applyVerb_one_two (r : Reading) (verb : Char) :
    (applyVerb r verb (.wide precision x stored 1)).length =
      (applyVerb r verb (.wide precision x stored 2)).length := by
  cases hshown : verb = 'p' && usesNumber r verb with
  | false => rw [applyVerb_of_hidden hshown 1 2]
  | true =>
    rw [Bool.and_eq_true, decide_eq_true_eq] at hshown
    obtain ⟨rfl, huses⟩ := hshown
    simp only [applyVerb, huses, if_true]
    exact (addressText_one_two r.directive).1

/-- A template that shows an address shows the addresses one and two differently. -/
theorem showsAddressFrom_of_eq {fuel argument : Nat} {reordered : Bool} {chars : List Char}
    (h : expandFrom (.wide precision x stored 1) fuel argument reordered chars =
      expandFrom (.wide precision x stored 2) fuel argument reordered chars) :
    showsAddressFrom fuel argument reordered chars = false := by
  induction fuel generalizing argument reordered chars with
  | zero => rfl
  | succ fuel ih =>
    rw [showsAddressFrom]
    rw [expandFrom, expandFrom] at h
    cases hbehind : chars.dropWhile (· ≠ '%') with
    | nil => rfl
    | cons percent behind =>
      simp only [hbehind] at h ⊢
      cases hrest : (Reading.ofChars argument reordered behind).rest with
      | nil => rfl
      | cons verb rest =>
        simp only [hrest, List.append_assoc] at h ⊢
        -- what the verb writes has one length, so it is the same, and so is what follows
        obtain ⟨hverb, hfollows⟩ := List.append_inj
          (List.append_cancel_left (List.append_cancel_left h))
          (length_applyVerb_one_two _ verb)
        rw [Bool.or_eq_false_iff]
        refine ⟨?_, ih hfollows⟩
        rw [Bool.and_eq_false_iff, ← Bool.not_eq_true, decide_eq_true_eq, ← Bool.not_eq_true]
        refine Decidable.not_and_iff_not_or_not.mp ?_
        rintro ⟨rfl, huses⟩
        simp only [applyVerb, huses, if_true] at hverb
        exact (addressText_one_two _).2 hverb

/-- A template shows the address of a wide number exactly if the text that it is expanded to depends
on the address. -/
theorem showsAddress_iff (template : String) :
    showsAddress template = true ↔
      ∃ a b, expand template (.wide precision x stored a) ≠
        expand template (.wide precision x stored b) := by
  constructor
  · intro hshows
    refine ⟨1, 2, fun hsame ↦ ?_⟩
    have hhidden := showsAddressFrom_of_eq (String.ofList_injective hsame)
    rw [showsAddress, hhidden] at hshows
    cases hshows
  · rintro ⟨a, b, hne⟩
    cases hshows : showsAddress template with
    | true => rfl
    | false => exact absurd (expand_of_hidden hshows a b) hne

end

end Template

end Reckoner
