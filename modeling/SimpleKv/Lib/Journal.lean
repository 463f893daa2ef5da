import SimpleKv.Lib.Incremental

/- Logs that a crash cuts short. A journal is a list that grows at its end, of which a
   part at the front is durable: a crash keeps a prefix that holds at least that part.
   Where the entries are written as strings of `β`, the file is a journal of `β` itself,
   and a crash of the file is a crash of the journal that may leave the beginning of one
   more entry behind (`Encoded.crash`). -/

structure Journal (α : Type) where
  entries : List α
  durable : Nat
  durable_le : durable ≤ entries.length

namespace Journal

variable {α β : Type}

def empty : Journal α := ⟨[], 0, Nat.le_refl 0⟩

def append (self : Journal α) (as : List α) : Journal α where
  entries := self.entries ++ as
  durable := self.durable
  durable_le := by
    rw [List.length_append]
    exact Nat.le_trans self.durable_le (Nat.le_add_right _ _)

/-- All that has been appended so far becomes durable. -/
def sync (self : Journal α) : Journal α := ⟨self.entries, self.entries.length, Nat.le_refl _⟩

/-- The first `kept` entries are left, and the durable ones if these are more. -/
def crash (self : Journal α) (kept : Nat) : Journal α where
  entries := self.entries.take (max self.durable kept)
  durable := self.durable
  durable_le := by
    rw [List.length_take]
    exact Nat.le_min.mpr ⟨Nat.le_max_left _ _, self.durable_le⟩

variable {self : Journal α}

/-! What is durable stays. -/

/-- The durable part of `self` is durable in `other` too. -/
def Keeps (self other : Journal α) : Prop :=
  self.durable ≤ other.durable ∧ other.entries.take self.durable = self.entries.take self.durable

namespace Keeps

theorem refl (self : Journal α) : self.Keeps self := ⟨Nat.le_refl _, rfl⟩

theorem trans {other third : Journal α} (h : self.Keeps other) (h' : other.Keeps third) :
    self.Keeps third := by
  refine ⟨Nat.le_trans h.1 h'.1, ?_⟩
  have hmin : min self.durable other.durable = self.durable := Nat.min_eq_left h.1
  calc third.entries.take self.durable
      = (third.entries.take other.durable).take self.durable := by rw [List.take_take, hmin]
    _ = (other.entries.take other.durable).take self.durable := by rw [h'.2]
    _ = self.entries.take self.durable := by rw [List.take_take, hmin, h.2]

/-- Of a journal that has just been synced, all is kept. -/
theorem prefix_of_sync {other : Journal α} (h : self.sync.Keeps other) :
    self.entries <+: other.entries := by
  have htake : other.entries.take self.entries.length = self.entries := by
    have := h.2
    rwa [show self.sync.entries.take self.sync.durable = self.entries from List.take_length] at this
  rw [← htake]
  exact List.take_prefix _ _

theorem append (self : Journal α) (as : List α) : self.Keeps (self.append as) :=
  ⟨Nat.le_refl _, List.take_append_of_le_length self.durable_le⟩

theorem sync (self : Journal α) : self.Keeps self.sync := ⟨self.durable_le, rfl⟩

theorem crash (self : Journal α) (kept : Nat) : self.Keeps (self.crash kept) := by
  refine ⟨Nat.le_refl _, ?_⟩
  show (self.entries.take _).take _ = _
  rw [List.take_take, Nat.min_eq_left (Nat.le_max_left _ _)]

end Keeps

/-! Journals as files. -/

section Files
variable {write : α → List β} {valid : α → Prop}

/-- A beginning of what is written for some valid entry, but not all of it. -/
def Partial (write : α → List β) (valid : α → Prop) (torn : List β) : Prop :=
  torn = [] ∨ ∃ a rest, valid a ∧ write a = torn ++ rest ∧ torn ≠ [] ∧ rest ≠ []

theorem Partial.take {torn : List β} (h : Partial write valid torn) (n : Nat) :
    Partial write valid (torn.take n) := by
  rcases h with rfl | ⟨a, rest, ha, hw, _, hrest⟩
  · exact .inl List.take_nil
  · by_cases hnil : torn.take n = []
    · exact .inl hnil
    · refine .inr ⟨a, torn.drop n ++ rest, ha, ?_, hnil, ?_⟩
      · rw [← List.append_assoc, List.take_append_drop]
        exact hw
      · simp [hrest]

/-- The journal has valid entries, and the file is what they are written as, and `torn`
    after it. -/
structure Encoded (write : α → List β) (valid : α → Prop) (journal : Journal α)
    (file : Journal β) (torn : List β) : Prop where
  all_valid : ∀ a ∈ journal.entries, valid a
  entries : file.entries = journal.entries.flatMap write ++ torn
  durable : ((journal.entries.take journal.durable).flatMap write).length ≤ file.durable
  torn : Partial write valid torn

/-- A prefix of a file that goes as far as what is written for `old`. -/
theorem exists_take_flatMap {torn : List β} (ht : Partial write valid torn) (old : List α)
    {recent : List α} (hrecent : ∀ a ∈ recent, valid a) {n : Nat}
    (hn : (old.flatMap write).length ≤ n) :
    ∃ pre post left, recent = pre ++ post ∧ Partial write valid left ∧
      ((old ++ recent).flatMap write ++ torn).take n = (old ++ pre).flatMap write ++ left := by
  obtain ⟨m, rfl⟩ := Nat.exists_eq_add_of_le hn
  simp only [List.flatMap_append, List.append_assoc, List.take_length_add_append]
  by_cases hm : m ≤ (recent.flatMap write).length
  · rw [List.take_append_of_le_length hm]
    rcases Incremental.Drains.take_flatMap write recent m hm with
      ⟨pre, post, hsplit, hpre⟩ | ⟨pre, a, post, u, v, hsplit, hwrite, hu, hv, hpre⟩
    · exact ⟨pre, post, [], hsplit, .inl rfl, by rw [hpre, List.append_nil]⟩
    · have ha : valid a := hrecent a (by simp [hsplit])
      exact ⟨pre, a :: post, u, hsplit, .inr ⟨a, v, ha, hwrite, hu, hv⟩, by rw [hpre]⟩
  · -- all entries are left, and a part of what was torn before
    refine ⟨recent, [], torn.take (m - (recent.flatMap write).length),
      (List.append_nil _).symm, ht.take _, ?_⟩
    rw [List.take_append, List.take_of_length_le (by omega)]

namespace Encoded
variable {file : Journal β} {torn : List β}

theorem empty : Encoded write valid (.empty : Journal α) .empty [] where
  all_valid := by simp [Journal.empty]
  entries := rfl
  durable := Nat.le_refl 0
  torn := .inl rfl

theorem append (h : Encoded write valid self file []) {as : List α} (has : ∀ a ∈ as, valid a) :
    Encoded write valid (self.append as) (file.append (as.flatMap write)) [] where
  all_valid a ha := by
    rcases List.mem_append.mp ha with ha | ha
    · exact h.all_valid a ha
    · exact has a ha
  entries := by
    show file.entries ++ _ = (self.entries ++ as).flatMap write ++ []
    rw [h.entries, List.append_nil, List.append_nil, List.flatMap_append]
  durable := by
    show (((self.entries ++ as).take self.durable).flatMap write).length ≤ file.durable
    rw [List.take_append_of_le_length self.durable_le]
    exact h.durable
  torn := h.torn

theorem sync (h : Encoded write valid self file torn) :
    Encoded write valid self.sync file.sync torn where
  all_valid := h.all_valid
  entries := h.entries
  durable := by
    show ((self.entries.take self.entries.length).flatMap write).length ≤ file.entries.length
    rw [h.entries, List.take_length, List.length_append]
    exact Nat.le_add_right _ _
  torn := h.torn

/-- A crash of the file is one of the journal, and may cut an entry in two. -/
theorem crash (h : Encoded write valid self file torn) (kept : Nat) :
    ∃ kept' torn', Encoded write valid (self.crash kept') (file.crash kept) torn' := by
  obtain ⟨old, recent, hentries, hold⟩ : ∃ old recent, self.entries = old ++ recent ∧
      old.length = self.durable :=
    ⟨_, _, (List.take_append_drop self.durable _).symm, by simp [self.durable_le]⟩
  have hdurable := h.durable
  rw [hentries, ← hold, List.take_left] at hdurable
  obtain ⟨pre, post, left, hrecent, hleft, hfile⟩ := @exists_take_flatMap _ _ write valid torn h.torn
    old recent (fun a ha => h.all_valid a (by simp [hentries, ha])) _
    (Nat.le_trans hdurable (Nat.le_max_left file.durable kept))
  rw [← hentries, ← h.entries] at hfile
  have hkept : (self.crash (old ++ pre).length).entries = old ++ pre := by
    show self.entries.take (max self.durable _) = _
    rw [Nat.max_eq_right (by simp [hold]), hentries, hrecent, ← List.append_assoc, List.take_left]
  refine ⟨(old ++ pre).length, left, fun a ha => h.all_valid a (List.mem_of_mem_take ha), ?_, ?_, hleft⟩
  · rw [hkept]
    exact hfile
  · rw [hkept]
    show ((List.take self.durable _).flatMap write).length ≤ file.durable
    rw [← hold, List.take_left]
    exact hdurable

end Encoded
end Files

end Journal
