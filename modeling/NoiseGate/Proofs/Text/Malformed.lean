import Mathlib.Data.List.Induction
import NoiseGate.Proofs.Text.Utf8

/-!
# Malformed runs

Bytes are decoded character by character. Where no character is spelled there is a malformed run. It
is as long as it could have been the beginning of a character, or a single byte that no character
begins with. This says how any bytes are decoded, and it does not mention the decoder.
-/

namespace NoiseGate.Utf8

/-- A character may begin with these bytes, or be all of them. -/
def Begins (front : Bytes) : Prop := ∃ more n, Spelled (front ++ more) n

/-- What bytes are decoded as. -/
inductive Reads : Bytes → List Piece → Prop
  | done : Reads [] []
  | character (front rest : Bytes) (n : Nat) (pieces : List Piece) (h : Spelled front n)
      (hr : Reads rest pieces) : Reads (front ++ rest) (some (Char.ofNat n) :: pieces)
  | stray (b : UInt8) (rest : Bytes) (pieces : List Piece) (h : ¬ Begins [b])
      (hr : Reads rest pieces) : Reads (b :: rest) (none :: pieces)
  | broken (front rest : Bytes) (pieces : List Piece) (hne : front ≠ []) (hb : Begins front)
      (whole : ∀ n, ¬ Spelled front n)
      (longest : ∀ b, rest.head? = some b → ¬ Begins (front ++ [b])) (hr : Reads rest pieces) :
      Reads (front ++ rest) (none :: pieces)

/-! ### Bytes that wait for more -/

/-- The first bytes of a character, with the number of missing bytes less one, the bounds on the next
one and the code so far. -/
inductive Waits : Bytes → Nat → UInt8 → UInt8 → Nat → Prop
  | two (a : UInt8) (first : 0xC2 ≤ a.toNat) (last : a.toNat < 0xE0) :
      Waits [a] 0 0x80 0xBF (a.toNat - 0xC0)
  | three (a : UInt8) (first : 0xE0 ≤ a.toNat) (last : a.toNat < 0xF0) :
      Waits [a] 1 (if a = 0xE0 then 0xA0 else 0x80) (if a = 0xED then 0x9F else 0xBF)
        (a.toNat - 0xE0)
  | four (a : UInt8) (first : 0xF0 ≤ a.toNat) (last : a.toNat < 0xF5) :
      Waits [a] 2 (if a = 0xF0 then 0x90 else 0x80) (if a = 0xF4 then 0x8F else 0xBF)
        (a.toNat - 0xF0)
  | next (front : Bytes) (more : Nat) (low high b : UInt8) (code : Nat)
      (h : Waits front (more + 1) low high code) (hb : low ≤ b ∧ b ≤ high) :
      Waits (front ++ [b]) more 0x80 0xBF (code * 64 + (b.toNat - 0x80))

namespace Waits

variable {front : Bytes} {more : Nat} {low high b : UInt8} {code : Nat}

theorem more_le (h : Waits front more low high code) : more ≤ 2 := by
  induction h with
  | two a first last => exact Nat.zero_le 2
  | three a first last => exact Nat.le_succ 1
  | four a first last => exact Nat.le_refl 2
  | next front more low high b code h hb ih => exact Nat.le_of_succ_le ih

theorem low_le_high (h : Waits front more low high code) : low ≤ high := by
  cases h with
  | two a first last => decide
  | three a first last =>
    by_cases ha : a = 0xE0
    · rw [ha]
      decide
    · rw [if_neg ha]
      split <;> decide
  | four a first last =>
    by_cases ha : a = 0xF0
    · rw [ha]
      decide
    · rw [if_neg ha]
      split <;> decide
  | next front more low high b code h hb => decide

theorem piecesFrom_eq (h : Waits front more low high code) (rest : Bytes) :
    piecesFrom .ground (front ++ rest) = piecesFrom (.inside (more + 1) low high code) rest := by
  have hlead (a : UInt8) (rest : Bytes) : piecesFrom .ground ([a] ++ rest) =
      (lead a).1 ++ piecesFrom (lead a).2 rest := rfl
  induction h generalizing rest with
  | two a first last => rw [hlead, lead_two a first last, List.nil_append]
  | three a first last => rw [hlead, lead_three a first last, List.nil_append]
  | four a first last => rw [hlead, lead_four a first last, List.nil_append]
  | next front more low high b code h hb ih =>
    rw [List.append_assoc, ih, List.singleton_append, piecesFrom_cons,
      step_more more hb, List.nil_append]

theorem spelled (h : Waits front 0 low high code) (hb : low ≤ b ∧ b ≤ high) :
    Spelled (front ++ [b]) (code * 64 + (b.toNat - 0x80)) := by
  cases h with
  | two a first last => exact .two a b _ first last ((isTail_iff b).mp hb) rfl
  | next front _ _ _ c _ h hc =>
    cases h with
    | three a first last =>
      obtain ⟨htail, hlong, hsurrogate⟩ :=
        (within_iff a c 0xE0 0xED 0xA0 0x9F (by decide) (by decide)).mp hc
      exact .three a c b _ first last htail ((isTail_iff b).mp hb) hlong hsurrogate rfl
    | next front _ _ _ d _ h hd =>
      cases h with
      | four a first last =>
        obtain ⟨htail, hlong, hlast⟩ :=
          (within_iff a d 0xF0 0xF4 0x90 0x8F (by decide) (by decide)).mp hd
        exact .four a d c b _ first last htail ((isTail_iff c).mp hc) ((isTail_iff b).mp hb) hlong
          hlast rfl
      | next front _ _ _ e _ h he => exact absurd h.more_le (by decide)

theorem begins (h : Waits front more low high code) : Begins front := by
  induction more generalizing front low high code with
  | zero => exact ⟨[low], _, h.spelled ⟨UInt8.le_refl low, h.low_le_high⟩⟩
  | succ more ih =>
    obtain ⟨rest, n, hn⟩ := ih (h.next _ _ _ _ low _ ⟨UInt8.le_refl low, h.low_le_high⟩)
    exact ⟨[low] ++ rest, n, by rwa [← List.append_assoc]⟩

theorem goesOn (h : Waits front more low high code) (hb : low ≤ b ∧ b ≤ high) :
    (∃ n, Spelled (front ++ [b]) n) ∨
      ∃ more low high code, Waits (front ++ [b]) more low high code := by
  cases more with
  | zero => exact .inl ⟨_, h.spelled hb⟩
  | succ more => exact .inr ⟨_, _, _, _, h.next _ _ _ _ b _ hb⟩

end Waits

theorem Spelled.begins {front : Bytes} {n : Nat} (h : Spelled front n) : Begins front :=
  ⟨[], n, by rwa [List.append_nil]⟩

theorem first_cases (a : UInt8) : (∃ n, Spelled [a] n) ∨
    (∃ more low high code, Waits [a] more low high code) ∨ lead a = ([none], .ground) := by
  by_cases hone : a.toNat < 0x80
  · exact .inl ⟨_, .one a _ hone rfl⟩
  by_cases htwo : 0xC2 ≤ a.toNat ∧ a.toNat < 0xE0
  · exact .inr (.inl ⟨_, _, _, _, .two a htwo.1 htwo.2⟩)
  by_cases hthree : 0xE0 ≤ a.toNat ∧ a.toNat < 0xF0
  · exact .inr (.inl ⟨_, _, _, _, .three a hthree.1 hthree.2⟩)
  by_cases hfour : 0xF0 ≤ a.toNat ∧ a.toNat < 0xF5
  · exact .inr (.inl ⟨_, _, _, _, .four a hfour.1 hfour.2⟩)
  · exact .inr (.inr (lead_bad a (by omega)))

theorem spelled_or_waits (front : Bytes) (hne : front ≠ []) (hb : Begins front) :
    (∃ n, Spelled front n) ∨ ∃ more low high code, Waits front more low high code := by
  obtain ⟨more, n, hn⟩ := hb
  have hwhole : piecesFrom .ground (front ++ more) = [some (Char.ofNat n)] := by
    rw [← List.append_nil (front ++ more), piecesFrom_spelled hn, piecesFrom]
  clear hn
  induction front using List.reverseRecOn generalizing more with
  | nil => exact absurd rfl hne
  | append_singleton front b ih =>
    rw [List.append_assoc, List.singleton_append] at hwhole
    by_cases hfront : front = []
    · subst hfront
      rw [List.nil_append] at hwhole ⊢
      rcases first_cases b with hspelled | hwaits | hstray
      · exact .inl hspelled
      · exact .inr hwaits
      · rw [piecesFrom_cons, step, hstray] at hwhole
        cases hwhole
    rcases ih hfront (b :: more) hwhole with ⟨m, hm⟩ | ⟨missing, low, high, code, hwaits⟩
    · rw [piecesFrom_spelled hm] at hwhole
      have hnone := eq_nil_of_piecesFrom _ _ (List.cons.inj hwhole).2
      cases hnone.2
    · by_cases hb : low ≤ b ∧ b ≤ high
      · exact hwaits.goesOn hb
      · rw [hwaits.piecesFrom_eq, piecesFrom_cons, step, if_neg hb] at hwhole
        cases hwhole

/-! ### Every way to read bytes is the decoder's -/

theorem piecesFrom_stray {b : UInt8} (h : ¬ Begins [b]) (rest : Bytes) :
    piecesFrom .ground (b :: rest) = none :: piecesFrom .ground rest := by
  rcases first_cases b with ⟨n, hn⟩ | ⟨more, low, high, code, hwaits⟩ | hstray
  · exact absurd hn.begins h
  · exact absurd hwaits.begins h
  · rw [piecesFrom_cons, step, hstray]
    rfl

theorem piecesFrom_broken {front rest : Bytes} (hne : front ≠ []) (hb : Begins front)
    (whole : ∀ n, ¬ Spelled front n)
    (longest : ∀ b, rest.head? = some b → ¬ Begins (front ++ [b])) :
    piecesFrom .ground (front ++ rest) = none :: piecesFrom .ground rest := by
  rcases spelled_or_waits front hne hb with ⟨n, hn⟩ | ⟨more, low, high, code, hwaits⟩
  · exact absurd hn (whole n)
  rw [hwaits.piecesFrom_eq]
  cases rest with
  | nil => rfl
  | cons b rest =>
    have hbounds : ¬ (low ≤ b ∧ b ≤ high) := by
      intro hb
      rcases hwaits.goesOn hb with ⟨n, hn⟩ | ⟨_, _, _, _, hmore⟩
      · exact longest b rfl hn.begins
      · exact longest b rfl hmore.begins
    rw [piecesFrom_cons, step, if_neg hbounds]
    rfl

theorem Reads.piecesFrom_eq {bytes : Bytes} {pieces : List Piece} (h : Reads bytes pieces) :
    piecesFrom .ground bytes = pieces := by
  induction h with
  | done => rfl
  | character front rest n pieces h hr ih => rw [piecesFrom_spelled h, ih]
  | stray b rest pieces h hr ih => rw [piecesFrom_stray h, ih]
  | broken front rest pieces hne hb whole longest hr ih =>
    rw [piecesFrom_broken hne hb whole longest, ih]

theorem exists_longest (front rest : Bytes) (hb : Begins front) : ∃ more behind,
    rest = more ++ behind ∧ Begins (front ++ more) ∧
      ∀ b, behind.head? = some b → ¬ Begins (front ++ more ++ [b]) := by
  induction rest generalizing front with
  | nil => exact ⟨[], [], rfl, by rwa [List.append_nil], by simp⟩
  | cons b rest ih =>
    by_cases hmore : Begins (front ++ [b])
    · obtain ⟨more, behind, rfl, hbegins, hlongest⟩ := ih (front ++ [b]) hmore
      rw [List.append_assoc, List.singleton_append] at hbegins hlongest
      exact ⟨b :: more, behind, rfl, hbegins, hlongest⟩
    · refine ⟨[], b :: rest, rfl, by rwa [List.append_nil], ?_⟩
      intro c hc
      cases hc
      rwa [List.append_nil]

theorem exists_reads (bytes : Bytes) : ∃ pieces, Reads bytes pieces := by
  induction hlen : bytes.length using Nat.strongRecOn generalizing bytes with
  | ind len ih =>
    cases bytes with
    | nil => exact ⟨[], .done⟩
    | cons b bytes =>
      have hread (front behind : Bytes) (h : bytes = front ++ behind) :
          ∃ pieces, Reads behind pieces := by
        have hlt : behind.length < len := by
          rw [← hlen, h, List.length_cons, List.length_append]
          omega
        exact ih behind.length hlt behind rfl
      by_cases hb : Begins [b]
      · obtain ⟨more, behind, rfl, hbegins, hlongest⟩ := exists_longest [b] bytes hb
        obtain ⟨pieces, hpieces⟩ := hread more behind rfl
        rw [← List.cons_append]
        by_cases hwhole : ∃ n, Spelled (b :: more) n
        · obtain ⟨n, hn⟩ := hwhole
          exact ⟨_, .character _ _ n _ hn hpieces⟩
        · rw [not_exists] at hwhole
          exact ⟨_, .broken _ _ _ (List.cons_ne_nil b more) hbegins hwhole hlongest hpieces⟩
      · obtain ⟨pieces, hpieces⟩ := hread [] bytes rfl
        exact ⟨_, .stray b bytes _ hb hpieces⟩

/-- The decoder reads characters where they are spelled, and runs that are as long as can be between
them. There is no other way to read the bytes. -/
theorem pieces_eq_iff (bytes : Bytes) (ps : List Piece) : pieces bytes = ps ↔ Reads bytes ps := by
  rw [pieces_eq_piecesFrom]
  constructor
  · rintro rfl
    obtain ⟨ps, hps⟩ := exists_reads bytes
    rwa [hps.piecesFrom_eq]
  · exact Reads.piecesFrom_eq

/-- Two bytes of three, one of two, and a letter. -/
example : pieces [0xE2, 0x82, 0xC2, 0x41] = [none, none, some 'A'] := by decide

end NoiseGate.Utf8
