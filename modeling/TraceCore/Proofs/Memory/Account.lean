/-
What a table owes to its history. The dirty chunks of a page are exactly those that the stores into cached code wrote to
since everything was last forgotten. So a snapshot whose chunks none of these stores wrote to is current, whatever else
was stored or registered, and as long as the count of such stores stands still no snapshot changes its mind.
-/
import Mathlib.Data.List.Basic
import Mathlib.Data.List.Induction
import TraceCore.Proofs.Memory.Snapshot

namespace TraceCore

/-! ## Tables that move on -/

namespace StampTable

variable {t u v : StampTable}

/-- What can become of a table: stores into its pages are reported, code is registered, and everything is forgotten. -/
inductive Evolves (t : StampTable) : StampTable → Prop
  | refl : Evolves t t
  | store {u : StampTable} (p : UInt64) (mask : UInt32) : Evolves t u → Evolves t (u.storePage p mask)
  | register {u : StampTable} (p : UInt64) (mask : UInt32) : Evolves t u → Evolves t (u.register p mask)
  | reset {u : StampTable} : Evolves t u → Evolves t u.reset

theorem Evolves.trans (h : t.Evolves u) (h' : u.Evolves v) : t.Evolves v := by
  induction h' with
  | refl => exact h
  | store p mask _ ih => exact ih.store p mask
  | register p mask _ ih => exact ih.register p mask
  | reset _ ih => exact ih.reset

/-- A store of any length is stores into single pages. -/
theorem evolves_store (t : StampTable) (addr : UInt64) (len : Nat) : t.Evolves (t.store addr len) := by
  fun_induction store t addr len with
  | case1 => exact .refl
  | case2 => exact .refl
  | case3 t addr len _ _ n t' _ ih => exact Evolves.trans (.store _ _ .refl) ih
  | case4 t addr len => exact .store _ _ .refl

theorem check_register (t : StampTable) (p : UInt64) (mask : UInt32) (snap : Snapshot) :
    (t.register p mask).check snap = t.check snap := by
  unfold check
  rw [page?_register]
  by_cases hp : p = snap.page
  · rw [if_pos hp]
    cases t.page? snap.page with
    | none => rfl
    | some s => rfl
  · rw [if_neg hp]

/-- The count only grows, and while it stands still every check comes out as before. -/
theorem Evolves.check_eq (h : t.Evolves u) :
    t.generation ≤ u.generation ∧ (u.generation = t.generation → ∀ snap, u.check snap = t.check snap) := by
  induction h with
  | refl => exact ⟨Nat.le_refl _, fun _ _ => rfl⟩
  | @store u p mask _ ih =>
    obtain ⟨hle, hsame⟩ := generation_storePage u p mask
    refine ⟨Nat.le_trans ih.1 hle, fun hgen snap => ?_⟩
    have hle' := ih.1
    rw [hsame (by omega)]
    exact ih.2 (by omega) snap
  | @register u p mask _ ih => exact ⟨ih.1, fun hgen snap => (u.check_register p mask snap).trans (ih.2 hgen snap)⟩
  | @reset u _ ih =>
    have hlt : t.generation < u.reset.generation := Nat.lt_succ_of_le ih.1
    exact ⟨Nat.le_of_lt hlt, fun hgen => by omega⟩

end StampTable

/-! ## Histories -/

/-- A store of `len` bytes at `addr` writes to a byte in one of the chunks `mask` of page `p`. -/
def Writes (addr : UInt64) (len : Nat) (p : UInt64) (mask : UInt32) : Prop :=
  ∃ x, addr.toNat ≤ x ∧ x < addr.toNat + len ∧ x < 2 ^ 64 ∧ x / pageSize = p.toNat ∧
    hasChunk mask (x % pageSize / chunkSize) = true

theorem writes_iff {addr : UInt64} {len : Nat} {p : UInt64} {mask : UInt32} :
    Writes addr len p mask ↔ storedChunks addr len p &&& mask ≠ 0 := by
  rw [Ne, and_eq_zero_iff]
  simp only [not_forall, Bool.not_eq_false, exists_prop]
  constructor
  · rintro ⟨x, h1, h2, h3, hpage, hmask⟩
    exact ⟨_, (hasChunk_storedChunks ..).2 ⟨x, h1, h2, h3, hpage, rfl⟩, hmask⟩
  · rintro ⟨j, hstored, hmask⟩
    obtain ⟨x, h1, h2, h3, hpage, rfl⟩ := (hasChunk_storedChunks ..).1 hstored
    exact ⟨x, h1, h2, h3, hpage, hmask⟩

instance (addr : UInt64) (len : Nat) (p : UInt64) (mask : UInt32) : Decidable (Writes addr len p mask) :=
  decidable_of_iff _ writes_iff.symm

namespace StampTable

/-- What is called on a table. -/
inductive Call where
  | register (p : UInt64) (mask : UInt32)
  | store (addr : UInt64) (len : Nat)
  | reset
deriving DecidableEq

def call (t : StampTable) : Call → StampTable
  | .register p mask => t.register p mask
  | .store addr len => t.store addr len
  | .reset => t.reset

def after (t : StampTable) (calls : List Call) : StampTable := calls.foldl call t

theorem after_append (t : StampTable) (calls more : List Call) :
    t.after (calls ++ more) = (t.after calls).after more :=
  List.foldl_append

theorem after_concat (t : StampTable) (calls : List Call) (c : Call) :
    t.after (calls ++ [c]) = (t.after calls).call c :=
  List.foldl_concat ..

@[simp] theorem size_call (t : StampTable) (c : Call) : (t.call c).pages.size = t.pages.size := by
  cases c with
  | register p mask => exact size_register ..
  | store addr len => exact size_store ..
  | reset => exact Array.size_replicate

@[simp] theorem size_after (t : StampTable) (calls : List Call) : (t.after calls).pages.size = t.pages.size := by
  induction calls generalizing t with
  | nil => rfl
  | cons c calls ih => exact (ih (t.call c)).trans (size_call t c)

theorem evolves_after (t : StampTable) (calls : List Call) : t.Evolves (t.after calls) := by
  induction calls generalizing t with
  | nil => exact .refl
  | cons c calls ih =>
    refine Evolves.trans ?_ (ih (t.call c))
    cases c with
    | register p mask => exact .register p mask .refl
    | store addr len => exact evolves_store t addr len
    | reset => exact .reset .refl

/-! ### The stores that hit -/

/-- Since everything was last forgotten, a store of `len` bytes at `addr` hit cached code on page `p`. -/
def HitSince (t : StampTable) (calls : List Call) (p addr : UInt64) (len : Nat) : Prop :=
  ∃ before since, calls = before ++ .store addr len :: since ∧ .reset ∉ since ∧
    Writes addr len p ((t.after before).page p).code

variable {t : StampTable} {calls : List Call} {p addr : UInt64} {len : Nat}

theorem hit_iff_writes {s : PageState} : s.hit (storedChunks addr len p) = true ↔ Writes addr len p s.code := by
  rw [writes_iff, UInt32.and_comm]
  simp [PageState.hit]

theorem not_hitSince_nil : ¬t.HitSince [] p addr len := by
  rintro ⟨before, since, h, -⟩
  simp at h

/-- The last call hits, or an earlier one did that is not forgotten with it. -/
theorem hitSince_concat {c : Call} : t.HitSince (calls ++ [c]) p addr len ↔
    (t.HitSince calls p addr len ∧ c ≠ .reset) ∨
      (c = .store addr len ∧ Writes addr len p ((t.after calls).page p).code) := by
  constructor
  · rintro ⟨before, since, hsplit, hreset, hits⟩
    rcases List.eq_nil_or_concat since with rfl | ⟨since, c', rfl⟩
    · obtain ⟨rfl, hc⟩ := List.append_inj' hsplit rfl
      right
      exact ⟨List.singleton_inj.1 hc, hits⟩
    · have hsplit' : calls ++ [c] = (before ++ .store addr len :: since) ++ [c'] := by simpa using hsplit
      obtain ⟨rfl, hc⟩ := List.append_inj' hsplit' rfl
      obtain rfl := List.singleton_inj.1 hc
      simp only [List.concat_eq_append, List.mem_append, List.mem_singleton, not_or] at hreset
      left
      exact ⟨⟨before, since, rfl, hreset.1, hits⟩, fun h => hreset.2 h.symm⟩
  · rintro (⟨⟨before, since, rfl, hreset, hits⟩, hc⟩ | ⟨rfl, hits⟩)
    · refine ⟨before, since ++ [c], by simp, ?_, hits⟩
      simp only [List.mem_append, List.mem_singleton, not_or]
      exact ⟨hreset, fun h => hc h.symm⟩
    · exact ⟨calls, [], rfl, List.not_mem_nil, hits⟩

/-- Nothing is known of a page that was never touched, or that was forgotten. -/
theorem page_blank (n generation : Nat) (p : UInt64) : page ⟨Array.replicate n {}, generation⟩ p = {} := by
  unfold page page?
  rw [Array.getElem?_replicate]
  split <;> rfl

/-- A store that hits cached code makes dirty what it writes to. -/
theorem hasChunk_dirty_store (t : StampTable) (addr : UInt64) (len : Nat) (p : UInt64) (j : Nat) :
    hasChunk ((t.store addr len).page p).dirty j = true ↔ hasChunk (t.page p).dirty j = true ∨
      (Writes addr len p (t.page p).code ∧ hasChunk (storedChunks addr len p) j = true) := by
  rw [page_store, PageState.dirty_store, ← hit_iff_writes]
  cases (t.page p).hit (storedChunks addr len p) with
  | false => simp
  | true => simp [hasChunk_or]

theorem dirty_register (t : StampTable) (q p : UInt64) (mask : UInt32) :
    ((t.register q mask).page p).dirty = (t.page p).dirty := by
  rcases t.page_register q p mask with h | h
  · rw [h]
  · rw [h]
    rfl

/-- A chunk is dirty behind a call if it was before and is not forgotten, or if the call is a store that hits. -/
theorem hasChunk_dirty_call (t : StampTable) (c : Call) (p : UInt64) (j : Nat) :
    hasChunk ((t.call c).page p).dirty j = true ↔ (hasChunk (t.page p).dirty j = true ∧ c ≠ .reset) ∨
      ∃ addr len, (c = .store addr len ∧ Writes addr len p (t.page p).code) ∧
        hasChunk (storedChunks addr len p) j = true := by
  cases c with
  | register q mask =>
    show hasChunk ((t.register q mask).page p).dirty j = true ↔ _
    rw [dirty_register]
    simp
  | store addr len =>
    refine (hasChunk_dirty_store t addr len p j).trans (or_congr (by simp) ?_)
    constructor
    · rintro ⟨hwrites, hj⟩
      exact ⟨addr, len, ⟨rfl, hwrites⟩, hj⟩
    · rintro ⟨a, l, ⟨hc, hwrites⟩, hj⟩
      cases hc
      exact ⟨hwrites, hj⟩
  | reset =>
    rw [show (t.call .reset).page p = {} from page_blank ..]
    simp

/-- A chunk is dirty just if a store that hit cached code of its page wrote to it. -/
theorem hasChunk_dirty_after (n : Nat) (calls : List Call) (p : UInt64) (j : Nat) :
    hasChunk (((ofPages n).after calls).page p).dirty j = true ↔
      ∃ addr len, (ofPages n).HitSince calls p addr len ∧ hasChunk (storedChunks addr len p) j = true := by
  induction calls using List.reverseRecOn with
  | nil =>
    rw [show ((ofPages n).after []).page p = {} from page_blank ..]
    simp [not_hitSince_nil]
  | append_singleton calls c ih =>
    rw [after_concat, hasChunk_dirty_call, ih]
    simp only [hitSince_concat]
    constructor
    · rintro (⟨⟨addr, len, hhit, hj⟩, hc⟩ | ⟨addr, len, hhit, hj⟩)
      · exact ⟨addr, len, Or.inl ⟨hhit, hc⟩, hj⟩
      · exact ⟨addr, len, Or.inr hhit, hj⟩
    · rintro ⟨addr, len, ⟨hhit, hc⟩ | hhit, hj⟩
      · exact Or.inl ⟨⟨addr, len, hhit, hj⟩, hc⟩
      · exact Or.inr ⟨addr, len, hhit, hj⟩

/-- A snapshot that names no dirty chunk is current. -/
theorem check_of_clean {t : StampTable} {snap : Snapshot} (h : (t.page snap.page).dirty &&& snap.mask = 0) :
    t.check snap = some (if snap.page.toNat < t.pages.size then (t.page snap.page).stamp else snap.stamp) := by
  unfold check
  by_cases hin : snap.page.toNat < t.pages.size
  · have hcurrent : (t.page snap.page).current snap.stamp snap.mask = true := by
      unfold PageState.current
      rw [h, beq_self_eq_true, Bool.or_true]
    rw [page?_of_lt hin, if_pos hin]
    exact if_pos hcurrent
  · rw [page?_eq_none_iff.2 (Nat.le_of_not_lt hin), if_neg hin]

/-- A snapshot stays current as long as no store that hits cached code of its page writes to one of its chunks. And
while the generation stands still, every snapshot is checked with the same answer. -/
theorem check_after (n : Nat) (calls : List Call) :
    (∀ snap : Snapshot,
      (∀ addr len, (ofPages n).HitSince calls snap.page addr len → ¬Writes addr len snap.page snap.mask) →
        ((ofPages n).after calls).check snap =
          some (if snap.page.toNat < n then (((ofPages n).after calls).page snap.page).stamp else snap.stamp)) ∧
      ∀ more, ((ofPages n).after (calls ++ more)).generation = ((ofPages n).after calls).generation →
        ∀ snap, ((ofPages n).after (calls ++ more)).check snap = ((ofPages n).after calls).check snap := by
  constructor
  · intro snap hmissed
    have hclean : (((ofPages n).after calls).page snap.page).dirty &&& snap.mask = 0 := by
      rw [and_eq_zero_iff]
      intro j hdirty
      obtain ⟨addr, len, hhit, hstored⟩ := (hasChunk_dirty_after ..).1 hdirty
      by_contra hmask
      apply hmissed addr len hhit
      obtain ⟨x, h1, h2, h3, hpage, rfl⟩ := (hasChunk_storedChunks ..).1 hstored
      exact ⟨x, h1, h2, h3, hpage, by simpa using hmask⟩
    have hsize : ((ofPages n).after calls).pages.size = n := by
      rw [size_after]
      exact Array.size_replicate
    rw [check_of_clean hclean, hsize]
  · intro more hstill
    rw [after_append] at hstill ⊢
    exact (evolves_after _ more).check_eq.2 hstill

/-- A neighbour is stored to and registered again, and a page without code is stored to. -/
theorem check_after_neighbour :
    ((ofPages 2).after [.register 0 1, .register 0 8, .store 384 4, .register 0 8, .store 4096 8]).check ⟨0, 0, 1⟩ =
      some 1 := by
  refine ((check_after 2 [.register 0 1, .register 0 8, .store 384 4, .register 0 8, .store 4096 8]).1 ⟨0, 0, 1⟩
    ?_).trans (by decide +kernel)
  rintro addr len ⟨before, since, hsplit, -⟩
  have hmem : Call.store addr len ∈ [.register 0 1, .register 0 8, .store 384 4, .register 0 8, .store 4096 8] := by
    rw [hsplit]
    simp
  simp only [List.mem_cons, List.not_mem_nil, Call.store.injEq, reduceCtorEq, false_or, or_false] at hmem
  rcases hmem with ⟨rfl, rfl⟩ | ⟨rfl, rfl⟩
  · decide +kernel
  · decide +kernel

end StampTable

end TraceCore
