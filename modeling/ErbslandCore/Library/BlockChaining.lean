import Mathlib.Data.List.Induction

namespace ErbslandCore.Library
set_option autoImplicit true

namespace BlockChaining

section chaining
variable {B : Type} (combine : B → B → B)

/-- Each block is combined with the ciphertext before it. -/
def encrypt (cipher : B → B) (chain : B) : List B → List B
  | [] => []
  | p :: ps =>
    let c := cipher (combine p chain)
    c :: encrypt cipher c ps

def decrypt (inverse : B → B) (chain : B) : List B → List B
  | [] => []
  | c :: cs => combine (inverse c) chain :: decrypt inverse c cs

/-- The block that the next one is combined with. -/
def chainAfter (chain : B) (cs : List B) : B := cs.getLast?.getD chain

theorem chainAfter_concat (chain c : B) (cs : List B) : chainAfter chain (cs ++ [c]) = c := by
  rw [chainAfter, List.getLast?_concat, Option.getD_some]

theorem chainAfter_cons (chain c : B) (cs : List B) :
    chainAfter chain (c :: cs) = chainAfter c cs := by
  cases cs with
  | nil => rfl
  | cons d cs => rw [chainAfter, chainAfter, List.getLast?_cons_cons, List.getLast?_cons]; rfl

variable {combine} {cipher inverse : B → B}

theorem encrypt_concat (chain p : B) (ps : List B) :
    encrypt combine cipher chain (ps ++ [p]) = encrypt combine cipher chain ps ++
      [cipher (combine p (chainAfter chain (encrypt combine cipher chain ps)))] := by
  induction ps generalizing chain with
  | nil => rfl
  | cons q ps ih =>
    rw [List.cons_append, encrypt, ih, encrypt, chainAfter_cons]
    rfl

theorem decrypt_concat (chain c : B) (cs : List B) :
    decrypt combine inverse chain (cs ++ [c]) =
      decrypt combine inverse chain cs ++ [combine (inverse c) (chainAfter chain cs)] := by
  induction cs generalizing chain with
  | nil => rfl
  | cons d cs ih =>
    rw [List.cons_append, decrypt, ih, decrypt, chainAfter_cons]
    rfl

theorem length_encrypt (chain : B) (ps : List B) :
    (encrypt combine cipher chain ps).length = ps.length := by
  induction ps generalizing chain with
  | nil => rfl
  | cons p ps ih => rw [encrypt, List.length_cons, ih, List.length_cons]

theorem length_decrypt (chain : B) (cs : List B) :
    (decrypt combine inverse chain cs).length = cs.length := by
  induction cs generalizing chain with
  | nil => rfl
  | cons c cs ih => rw [decrypt, List.length_cons, ih, List.length_cons]

theorem decrypt_encrypt (hcombine : ∀ a b, combine (combine a b) b = a)
    (hinverse : ∀ b, inverse (cipher b) = b) (chain : B) (ps : List B) :
    decrypt combine inverse chain (encrypt combine cipher chain ps) = ps := by
  induction ps generalizing chain with
  | nil => rfl
  | cons p ps ih => rw [encrypt, decrypt, ih, hinverse, hcombine]

end chaining
end BlockChaining

namespace MarkerPadding

section padding
variable {α : Type} [DecidableEq α] (marker filler : α)

/-- What is before the last marker, if only fillers are after it. -/
def unpad (x : List α) : Option (List α) :=
  match x.reverse.dropWhile (· = filler) with
  | [] => none
  | a :: rest => if a = marker then some rest.reverse else none

variable {marker filler}

@[simp] theorem unpad_nil : unpad marker filler ([] : List α) = none := rfl

theorem unpad_filler (x : List α) : unpad marker filler (x ++ [filler]) = unpad marker filler x := by
  rw [unpad, unpad, List.reverse_append, List.reverse_singleton, List.singleton_append,
    List.dropWhile_cons_of_pos (by simp)]

theorem unpad_marker (hne : marker ≠ filler) (x : List α) :
    unpad marker filler (x ++ [marker]) = some x := by
  rw [unpad, List.reverse_append, List.reverse_singleton, List.singleton_append,
    List.dropWhile_cons_of_neg (by simp [hne])]
  simp

theorem unpad_other (hmarker : a ≠ marker) (hfiller : a ≠ filler) (x : List α) :
    unpad marker filler (x ++ [a]) = none := by
  rw [unpad, List.reverse_append, List.reverse_singleton, List.singleton_append,
    List.dropWhile_cons_of_neg (by simp [hfiller])]
  simp [hmarker]

theorem unpad_pad (hne : marker ≠ filler) (x : List α) (n : Nat) :
    unpad marker filler (x ++ marker :: List.replicate n filler) = some x := by
  induction n with
  | zero => exact unpad_marker hne x
  | succ n ih =>
    have hlast : x ++ marker :: List.replicate (n + 1) filler =
        x ++ marker :: List.replicate n filler ++ [filler] := by
      rw [List.replicate_succ', List.append_assoc]
      rfl
    rw [hlast, unpad_filler, ih]

/-- Only a padded sequence has something before its padding. -/
theorem unpad_eq_some (hne : marker ≠ filler) {y x : List α} :
    unpad marker filler y = some x ↔ ∃ n, y = x ++ marker :: List.replicate n filler := by
  constructor
  · intro h
    induction y using List.reverseRecOn with
    | nil => cases h
    | append_singleton y a ih =>
      by_cases hfiller : a = filler
      · rw [hfiller, unpad_filler] at h
        obtain ⟨n, rfl⟩ := ih h
        refine ⟨n + 1, ?_⟩
        rw [hfiller, List.replicate_succ', List.append_assoc]
        rfl
      · by_cases hmarker : a = marker
        · rw [hmarker, unpad_marker hne] at h
          cases h
          exact ⟨0, by rw [hmarker]; rfl⟩
        · rw [unpad_other hmarker hfiller] at h
          cases h
  · rintro ⟨n, rfl⟩
    exact unpad_pad hne x n

end padding
end MarkerPadding
end ErbslandCore.Library
