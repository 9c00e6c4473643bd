/-
What a processor asks to have translated. A socket is given a survey, which lists the linear addresses in the order in
which they are asked for. Outside 64-bit code they have 32 bits, but for one: an operand that begins below 4 GiB and
ends beyond goes on at 4 GiB, and not at zero.
-/
import TraceCore.Proofs.Exec.Operand
import TraceCore.Proofs.Exec.Torn
import TraceCore.Proofs.Processor.Kept
import TraceCore.Proofs.Processor.Onward
import TraceCore.Proofs.Processor.Progress
import TraceCore.Proofs.Processor.Shown

namespace TraceCore

variable {ω α β : Type}

/-- A linear address that a bus was asked for. -/
structure Translation where
  linear : UInt64
  access : Access
deriving DecidableEq

/-- A world, and what it was asked to translate. -/
structure Survey (ω : Type) where
  world : ω
  asked : List Translation := []

/-- A step of the world that nothing is translated for. -/
def Survey.lift (f : ω → α × ω) (v : Survey ω) : α × Survey ω := ((f v.world).1, { v with world := (f v.world).2 })

/-- Every translation that is asked for is listed, whether it succeeds or not. -/
def Bus.surveying (bus : Bus ω) : Bus (Survey ω) where
  translate linear access cpl v :=
    let (r, w) := bus.translate linear access cpl v.world
    (r, { world := w, asked := v.asked ++ [⟨linear, access⟩] })
  codePage addr v := bus.codePage addr v.world
  read addr len := Survey.lift (bus.read addr len)
  write addr src := Survey.lift (bus.write addr src)
  remaps v := bus.remaps v.world
  stamps v := bus.stamps v.world
  mapStamps f v := { v with world := bus.mapStamps f v.world }

/-- The same socket, with a survey made. -/
def Socket.surveying (s : Socket ω) : Socket (Survey ω) where
  bus := s.bus.surveying
  guard :=
    { stopsBefore rip := Survey.lift (s.guard.stopsBefore rip)
      watches addr len kind := Survey.lift (s.guard.watches addr len kind) }
  delivery :=
    { events _ cpu v :=
        let (handling, cpu, w) := s.delivery.events s.line cpu v.world
        (handling, cpu, { v with world := w })
      fault fault rip cpu v :=
        let (answer, cpu, w) := s.delivery.fault fault rip cpu v.world
        (answer, cpu, { v with world := w }) }
  line :=
    { events v := s.line.events v.world
      set e v := { v with world := s.line.set e v.world } }

/-- Making a survey changes nothing else. -/
theorem Socket.shows_surveying (s : Socket ω) : s.surveying.Shows Survey.world s where
  translate _ _ _ _ := rfl
  codePage _ _ := rfl
  read _ _ _ := rfl
  write _ _ _ := rfl
  remaps _ := rfl
  stamps _ := rfl
  mapStamps _ _ := rfl
  stopsBefore _ _ := rfl
  watches _ _ _ _ := rfl
  deliver _ _ := rfl
  fault _ _ _ _ := rfl
  events _ := rfl
  set _ _ := rfl

/-! ## Pieces of an operand -/

/-- Where the pieces of a range begin that goes page by page. -/
def pieces (linear : UInt64) (len : Nat) : List UInt64 :=
  if _h : len = 0 then []
  else
    let n := bytesInPage linear len
    linear :: pieces (linear + UInt64.ofNat n) (len - n)
termination_by len
decreasing_by exact Exec.sub_bytesInPage_lt ‹_›

theorem pieces_zero (linear : UInt64) : pieces linear 0 = [] := by
  rw [pieces, dif_pos rfl]

theorem pieces_of_pos (linear : UInt64) {len : Nat} (h : len ≠ 0) : pieces linear len =
    linear :: pieces (linear + UInt64.ofNat (bytesInPage linear len)) (len - bytesInPage linear len) := by
  rw [pieces, dif_neg h]

theorem pieces_whole {linear : UInt64} {len : Nat} (hlen : len ≠ 0) (h : bytesInPage linear len = len) :
    pieces linear len = [linear] := by
  rw [pieces_of_pos linear hlen, h, Nat.sub_self, pieces_zero]

theorem pieces_crossing {linear : UInt64} {len : Nat} (h : bytesInPage linear len < len) (hlen : len ≤ pageSize) :
    pieces linear len = [linear, linear + UInt64.ofNat (bytesInPage linear len)] := by
  rw [pieces_of_pos linear (by omega), pieces_whole (by omega) (bytesInPage_rest h hlen)]

namespace Exec

/-- What is asked for is `l`, in this order. What fails on the way has asked for a part of it. -/
def Asks (m : Exec (Survey ω) α) (l : List Translation) : Prop :=
  ∀ r, ∃ done, done <+: l ∧ ((eval m r).1.isOk = true → done = l) ∧ (eval m r).2.world.asked = r.world.asked ++ done

namespace Asks

theorem pure (a : α) : Asks (Pure.pure a : Exec (Survey ω) α) [] :=
  fun _ => ⟨[], List.prefix_rfl, fun _ => rfl, (List.append_nil _).symm⟩

theorem bind {m : Exec (Survey ω) α} {f : α → Exec (Survey ω) β} {l l' : List Translation} (hm : Asks m l)
    (hf : ∀ a, Asks (f a) l') : Asks (m >>= f) (l ++ l') := by
  intro r
  obtain ⟨done, hbegins, hok, hasked⟩ := hm r
  rw [eval_bind]
  rcases h : eval m r with ⟨x, r₁⟩
  rw [h] at hok hasked
  cases x with
  | error e => exact ⟨done, hbegins.trans (List.prefix_append l l'), nofun, hasked⟩
  | ok a =>
    obtain rfl := hok rfl
    obtain ⟨done', hbegins', hok', hasked'⟩ := hf a r₁
    refine ⟨done ++ done', (List.prefix_append_right_inj done).2 hbegins', fun hx => ?_, ?_⟩
    · rw [hok' hx]
    · rw [hasked', hasked, List.append_assoc]

end Asks

theorem eval_attempt {ε : Type} (fault : ε → Fault) (f : ω → Except ε α × ω) (r : Running ω) :
    eval (attempt fault f) r = match (f r.world).1 with
      | .ok a => (.ok a, { r with world := (f r.world).2 })
      | .error e => (.error (fault e), { r with world := (f r.world).2 }) := by
  unfold attempt
  rw [eval_bind, show eval (world f) r = (.ok (f r.world).1, { r with world := (f r.world).2 }) from rfl]
  cases (f r.world).1 <;> rfl

variable (bus : Bus ω) (guard : Guard (Survey ω))

/-- Nothing is translated when a piece is read or written. -/
theorem asks_attempt {ε : Type} (fault : ε → Fault) (f : ω → Except ε α × ω) :
    Asks (attempt fault (Survey.lift f)) [] := by
  intro r
  refine ⟨[], List.prefix_rfl, fun _ => rfl, ?_⟩
  rw [eval_attempt, List.append_nil]
  cases (Survey.lift f r.world).1 <;> rfl

theorem asks_translate (linear : UInt64) (access : Access) :
    Asks (translate bus.surveying linear access) [⟨linear, access⟩] := by
  intro r
  refine ⟨[⟨linear, access⟩], List.prefix_rfl, fun _ => rfl, ?_⟩
  unfold translate
  rw [eval_bind, eval_cpu]
  dsimp only
  rw [eval_attempt]
  cases (bus.surveying.translate linear access r.cpu.cpl r.world).1 <;> rfl

theorem asks_load (linear : UInt64) (len : Nat) :
    Asks (load bus.surveying linear len) ((pieces linear len).map (⟨·, .read⟩)) := by
  induction linear, len using pieces.induct with
  | case1 linear =>
    rw [pieces_zero, load, dif_pos rfl]
    exact .pure _
  | case2 linear len hlen n ih =>
    rw [pieces_of_pos linear hlen, List.map_cons, load, dif_neg hlen]
    refine (asks_translate bus linear .read).bind fun addr => (asks_attempt .bus _).bind fun piece => ?_
    rw [← List.append_nil (List.map _ _)]
    exact ih.bind fun rest => .pure _

theorem asks_probe (linear : UInt64) (len : Nat) :
    Asks (probe bus.surveying linear len) ((pieces linear len).map (⟨·, .write⟩)) := by
  induction linear, len using pieces.induct with
  | case1 linear =>
    rw [pieces_zero, probe, dif_pos rfl]
    exact .pure _
  | case2 linear len hlen n ih =>
    rw [pieces_of_pos linear hlen, List.map_cons, probe, dif_neg hlen]
    exact (asks_translate bus linear .write).bind fun _ => ih

theorem asks_storePieces (linear : UInt64) (src : List UInt8) :
    Asks (storePieces bus.surveying linear src) ((pieces linear src.length).map (⟨·, .write⟩)) := by
  generalize hn : src.length = len
  induction linear, len using pieces.induct generalizing src with
  | case1 linear =>
    rw [pieces_zero, storePieces, dif_pos hn]
    exact .pure _
  | case2 linear len hlen n ih =>
    rw [pieces_of_pos linear hlen, List.map_cons, storePieces, dif_neg (by rwa [hn])]
    rw [hn]
    refine (asks_translate bus linear .write).bind fun addr => (asks_attempt .bus _).bind fun _ => ?_
    exact ih _ (by rw [List.length_drop, hn])

/-- What a store asks for. One that crosses a page asks twice for each. -/
def storeAsks (linear : UInt64) (len : Nat) : List Translation :=
  let asks := (pieces linear len).map (⟨·, .write⟩)
  if bytesInPage linear len = len then [⟨linear, .write⟩] else asks ++ asks

theorem asks_store (s : Socket ω) (linear : UInt64) (src : List UInt8) :
    Asks (store s.surveying.bus s.surveying.guard linear src) (storeAsks linear src.length) := by
  rw [← List.nil_append (storeAsks _ _)]
  have hput : Asks (if bytesInPage linear src.length = src.length then do
        let addr ← translate s.surveying.bus linear .write
        attempt .bus (s.surveying.bus.write addr src)
      else do
        probe s.surveying.bus linear src.length
        storePieces s.surveying.bus linear src) (storeAsks linear src.length) := by
    unfold storeAsks
    dsimp only
    split
    case isTrue => exact (asks_translate s.bus linear .write).bind fun addr => asks_attempt .bus _
    case isFalse => exact (asks_probe s.bus linear _).bind fun _ => asks_storePieces s.bus linear src
  have hworld : Asks (world (s.surveying.guard.watches linear src.length .write)) [] :=
    fun r => ⟨[], List.prefix_rfl, fun _ => rfl, (List.append_nil _).symm⟩
  unfold store
  refine hworld.bind fun hit => ?_
  cases hit with
  | false => exact hput
  | true =>
    refine Asks.bind (l := []) ?_ fun _ => hput
    exact fun r => ⟨[], List.prefix_rfl, fun _ => rfl, (List.append_nil _).symm⟩

end Exec

/-! ## Below 4 GiB -/

/-- The first linear address that has more than 32 bits. -/
def fourGiB : Nat := 2 ^ 32

/-- A range of this length that begins at the linear address begins below 4 GiB and ends beyond. -/
def Translation.Straddles (t : Translation) (len : Nat) : Prop :=
  t.linear.toNat < fourGiB ∧ fourGiB < t.linear.toNat + len

theorem Cpu.HasOperandAt.lt_fourGiB {c : Cpu} (hcode : c.codeSize ≠ .b64) {linear : UInt64}
    (h : c.HasOperandAt linear) : linear.toNat < fourGiB := by
  have hlow : ∀ base offset, (c.linear base offset).toNat < fourGiB := by
    intro base offset
    unfold Cpu.linear
    split
    case h_1 h64 => exact absurd h64 hcode
    case h_2 =>
      rw [UInt64.toNat_and]
      exact Nat.lt_succ_of_le Nat.and_le_right
  obtain ⟨offset, rfl | rfl⟩ := h
  · exact hlow _ _
  · exact hlow _ _

/-- What is left of a range that crosses a page begins where the next page does. -/
theorem toNat_nextPage {linear : UInt64} {len : Nat} (h : bytesInPage linear len < len)
    (hlow : linear.toNat < fourGiB) :
    (linear + UInt64.ofNat (bytesInPage linear len)).toNat = linear.toNat / pageSize * pageSize + pageSize := by
  have hoffset := pageOffset_lt linear
  have hn : bytesInPage linear len = pageSize - pageOffset linear := by
    unfold bytesInPage at h ⊢
    omega
  rw [pageOffset_eq] at hoffset hn
  unfold fourGiB at hlow
  unfold pageSize at hoffset hn ⊢
  rw [UInt64.toNat_add, UInt64.toNat_ofNat_of_lt' (show bytesInPage linear len < UInt64.size by
    unfold UInt64.size; omega)]
  omega

/-- The pieces of a range that begins below 4 GiB begin there too, but for one at 4 GiB if the range ends beyond. -/
theorem pieces_below {linear : UInt64} {len : Nat} (hlow : linear.toNat < fourGiB) (hpos : len ≠ 0)
    (hlen : len ≤ pageSize) :
    (∀ x ∈ pieces linear len, (x.toNat < fourGiB ∧ (fourGiB < x.toNat + len → x = linear)) ∨
      x.toNat = fourGiB ∧ fourGiB < linear.toNat + len) ∧
    (fourGiB < linear.toNat + len → 0x100000000 ∈ pieces linear len) := by
  have hoffset := pageOffset_eq linear
  rcases Nat.lt_or_ge (bytesInPage linear len) len with hcross | hwhole
  · have hnext := toNat_nextPage hcross hlow
    have hbehind : linear.toNat / pageSize * pageSize + pageSize < linear.toNat + len := by
      unfold bytesInPage at hcross
      unfold pageSize at hcross hoffset ⊢
      omega
    rw [pieces_crossing hcross hlen]
    generalize linear + UInt64.ofNat (bytesInPage linear len) = next at hnext ⊢
    unfold fourGiB at hlow ⊢
    unfold pageSize at hnext hbehind hlen
    constructor
    · intro x hx
      rcases List.mem_cons.1 hx with rfl | hx
      · exact .inl ⟨hlow, fun _ => rfl⟩
      · obtain rfl := List.mem_singleton.1 hx
        by_cases hat : x.toNat = 2 ^ 32
        · exact .inr ⟨hat, by omega⟩
        · exact .inl ⟨by omega, fun hbeyond => by omega⟩
    · intro hbeyond
      have hat : next = 0x100000000 := UInt64.toNat_inj.1 (show next.toNat = 2 ^ 32 by omega)
      rw [hat]
      exact List.mem_cons_of_mem _ List.mem_cons_self
  · have hwhole : bytesInPage linear len = len := Nat.le_antisymm (bytesInPage_le _ _) hwhole
    rw [pieces_whole hpos hwhole]
    have hfits : linear.toNat + len ≤ fourGiB := by
      unfold bytesInPage at hwhole
      rw [hoffset] at hwhole
      unfold fourGiB at hlow ⊢
      unfold pageSize at hwhole
      omega
    constructor
    · intro x hx
      obtain rfl := List.mem_singleton.1 hx
      exact .inl ⟨hlow, fun _ => rfl⟩
    · intro hbeyond
      omega

/-- What an instruction with an operand of `len` bytes may ask for: linear addresses below 4 GiB, and 4 GiB itself if an
operand of it straddles that. If it is through it has asked for that in each such case. -/
structure Trail (len : Nat) (through : Bool) (asked : List Translation) : Prop where
  data : ∀ t ∈ asked, t.access ≠ .execute
  below : ∀ t ∈ asked, t.linear.toNat < fourGiB ∨
    t.linear.toNat = fourGiB ∧ ∃ t' ∈ asked, t'.access = t.access ∧ t'.Straddles len
  onward : through = true → ∀ t ∈ asked, t.Straddles len → ⟨0x100000000, t.access⟩ ∈ asked

namespace Trail

variable {len : Nat} {through : Bool} {asked asked' : List Translation}

theorem nil : Trail len through [] := by
  constructor
  · simp
  · simp
  · simp

theorem append (h : Trail len true asked) (h' : Trail len through asked') : Trail len through (asked ++ asked') := by
  constructor
  · intro t ht
    rcases List.mem_append.1 ht with ht | ht
    · exact h.data t ht
    · exact h'.data t ht
  · intro t ht
    rcases List.mem_append.1 ht with ht | ht
    · refine (h.below t ht).imp_right fun ⟨hat, t', ht', hstraddles⟩ => ?_
      exact ⟨hat, t', List.mem_append_left _ ht', hstraddles⟩
    · refine (h'.below t ht).imp_right fun ⟨hat, t', ht', hstraddles⟩ => ?_
      exact ⟨hat, t', List.mem_append_right _ ht', hstraddles⟩
  · intro hthrough t ht hstraddles
    rcases List.mem_append.1 ht with ht | ht
    · exact List.mem_append_left _ (h.onward rfl t ht hstraddles)
    · exact List.mem_append_right _ (h'.onward hthrough t ht hstraddles)

/-- What loading or storing an operand that begins below 4 GiB asks for. -/
theorem of_asks (access : Access) {linear : UInt64} {l : List Translation} (hlow : linear.toNat < fourGiB)
    (hpos : len ≠ 0) (hlen : len ≤ pageSize) (hdata : access ≠ .execute)
    (hl : ∀ t ∈ l, t.access = access ∧ t.linear ∈ pieces linear len)
    (hall : ∀ x ∈ pieces linear len, ⟨x, access⟩ ∈ l) (hfirst : ∃ rest, l = ⟨linear, access⟩ :: rest)
    (hbegins : asked <+: l) (hthrough : through = true → asked = l) : Trail len through asked := by
  obtain ⟨hpieces, hbeyond⟩ := pieces_below hlow hpos hlen
  have hmem : ∀ t ∈ asked, t.access = access ∧ t.linear ∈ pieces linear len := fun t ht => hl t (hbegins.mem ht)
  constructor
  · intro t ht
    rw [(hmem t ht).1]
    exact hdata
  · intro t ht
    obtain ⟨haccess, hpiece⟩ := hmem t ht
    refine (hpieces t.linear hpiece).imp (fun h => h.1) fun ⟨hat, hstraddles⟩ => ⟨hat, ⟨linear, access⟩, ?_, ?_⟩
    · obtain ⟨rest, rfl⟩ := hfirst
      rcases List.prefix_cons_iff.1 hbegins with rfl | ⟨asked', rfl, -⟩
      · cases ht
      · exact List.mem_cons_self
    · exact ⟨haccess.symm, hlow, hstraddles⟩
  · intro hx t ht hstraddles
    obtain ⟨haccess, hpiece⟩ := hmem t ht
    obtain rfl := hthrough hx
    have hstart : t.linear = linear := by
      rcases hpieces t.linear hpiece with ⟨-, h⟩ | ⟨hat, -⟩
      · exact h hstraddles.2
      · exact absurd hstraddles.1 (by rw [hat]; exact Nat.lt_irrefl _)
    rw [haccess]
    refine hall _ (hbeyond ?_)
    rw [← hstart]
    exact hstraddles.2

end Trail

namespace Exec

/-- What a part of an instruction does that keeps to the context of `c₀`, and asks for a list with a property. The
property may depend on whether the part is through. -/
def Lists (c₀ : Cpu) (T : Bool → List Translation → Prop) (m : Exec (Survey ω) α) : Prop :=
  ∀ r, c₀.SameContext r.cpu → c₀.SameContext (eval m r).2.cpu ∧
    ∃ asked, (eval m r).2.world.asked = r.world.asked ++ asked ∧ T (eval m r).1.isOk asked

section Lists

variable {c₀ : Cpu} {T : Bool → List Translation → Prop}

theorem Lists.bind {m : Exec (Survey ω) α} {f : α → Exec (Survey ω) β}
    (happend : ∀ {through asked asked'}, T true asked → T through asked' → T through (asked ++ asked'))
    (hm : Lists c₀ T m) (hf : ∀ a, Lists c₀ T (f a)) : Lists c₀ T (m >>= f) := by
  intro r hr
  obtain ⟨hcontext, asked, hasked, hlist⟩ := hm r hr
  rw [eval_bind]
  rcases h : eval m r with ⟨x, r₁⟩
  rw [h] at hcontext hasked hlist
  cases x with
  | error e => exact ⟨hcontext, asked, hasked, hlist⟩
  | ok a =>
    obtain ⟨hcontext', asked', hasked', hlist'⟩ := hf a r₁ hcontext
    refine ⟨hcontext', asked ++ asked', ?_, happend hlist hlist'⟩
    rw [hasked', hasked, List.append_assoc]

/-- Nothing is asked for. -/
theorem Lists.of_quiet {m : Exec (Survey ω) α} (hnil : ∀ through, T through [])
    (hcontext : ∀ r : Running (Survey ω), r.cpu.SameContext (eval m r).2.cpu)
    (hasked : ∀ r, (eval m r).2.world.asked = r.world.asked) : Lists c₀ T m :=
  fun r hr => ⟨hr.trans (hcontext r), [], by rw [hasked, List.append_nil], hnil _⟩

/-- A part that keeps to the context, and asks for the pieces of an operand. -/
theorem Lists.of_asks {m : Exec (Survey ω) α} {l : List Translation} (hcalm : Calm m) (hasks : Asks m l)
    (hlist : ∀ asked through, asked <+: l → (through = true → asked = l) → T through asked) : Lists c₀ T m := by
  intro r hr
  obtain ⟨asked, hbegins, hok, hasked⟩ := hasks r
  exact ⟨hr.trans (hcalm r).sameContext, asked, hasked, hlist asked _ hbegins hok⟩

end Lists

/-- What a part of an instruction does that keeps to the context of `c₀` and to a trail. -/
def Surveys (c₀ : Cpu) (len : Nat) (m : Exec (Survey ω) α) : Prop :=
  ∀ r, c₀.SameContext r.cpu → c₀.SameContext (eval m r).2.cpu ∧
    ∃ asked, (eval m r).2.world.asked = r.world.asked ++ asked ∧ Trail len (eval m r).1.isOk asked

variable {c₀ : Cpu} {len : Nat}

theorem Surveys.bind {m : Exec (Survey ω) α} {f : α → Exec (Survey ω) β} (hm : Surveys c₀ len m)
    (hf : ∀ a, Surveys c₀ len (f a)) : Surveys c₀ len (m >>= f) :=
  Lists.bind Trail.append hm hf

/-- Nothing is asked for. -/
theorem Surveys.of_quiet {m : Exec (Survey ω) α}
    (hcontext : ∀ r : Running (Survey ω), r.cpu.SameContext (eval m r).2.cpu)
    (hasked : ∀ r, (eval m r).2.world.asked = r.world.asked) : Surveys c₀ len m :=
  Lists.of_quiet (fun _ => .nil) hcontext hasked

/-- A part that keeps to the context, and asks for the pieces of an operand below 4 GiB. -/
theorem Surveys.of_asks {m : Exec (Survey ω) α} {l : List Translation} (hcalm : Calm m) (hasks : Asks m l)
    (htrail : ∀ asked through, asked <+: l → (through = true → asked = l) → Trail len through asked) :
    Surveys c₀ len m :=
  Lists.of_asks hcalm hasks htrail

variable {linear : UInt64}

theorem surveys_load (s : Socket ω) (hlow : linear.toNat < fourGiB) (hpos : len ≠ 0) (hlen : len ≤ pageSize) :
    Surveys c₀ len (load s.surveying.bus linear len) := by
  refine .of_asks (calm_load s.surveying linear len) (asks_load s.bus linear len) fun asked through hbegins hthrough => ?_
  refine .of_asks .read hlow hpos hlen nofun ?_ ?_ ?_ hbegins hthrough
  · simp
  · simp
  · rw [pieces_of_pos linear hpos]
    exact ⟨_, rfl⟩

theorem surveys_store (s : Socket ω) {src : List UInt8} (hlow : linear.toNat < fourGiB) (hpos : src.length ≠ 0)
    (hlen : src.length ≤ pageSize) :
    Surveys c₀ src.length (store s.surveying.bus s.surveying.guard linear src) := by
  have hfirst := pieces_of_pos linear hpos
  refine .of_asks (calm_store s.surveying linear src) (asks_store s linear src) fun asked through hbegins hthrough => ?_
  unfold storeAsks at hbegins hthrough
  dsimp only at hbegins hthrough
  split at hbegins
  case isTrue hwhole =>
    rw [if_pos hwhole] at hthrough
    have hpieces := pieces_whole hpos hwhole
    exact .of_asks .write hlow hpos hlen nofun (by simp [hpieces]) (by simp [hpieces]) ⟨[], rfl⟩ hbegins hthrough
  case isFalse hcross =>
    rw [if_neg hcross] at hthrough
    refine .of_asks .write hlow hpos hlen nofun (by simp) (by simp) ?_ hbegins hthrough
    rw [hfirst]
    exact ⟨_, rfl⟩

/-- Outside 64-bit code an instruction keeps to its trail, operand by operand. -/
theorem operandwise_surveys (s : Socket ω) (hcode : c₀.codeSize ≠ .b64) (i : Instr) :
    Operandwise s.surveying c₀ i (Surveys c₀ i.operandBytes) where
  pure _ := .of_quiet (fun _ => .refl _) fun _ => rfl
  throw _ := .of_quiet (fun _ => .refl _) fun _ => rfl
  bind := Surveys.bind
  cpu h := fun r hr => h r.cpu hr r hr
  modifyCpu h := .of_quiet (fun r => h r.cpu) fun _ => rfl
  retire := .of_quiet (fun _ => .refl _) fun _ => rfl
  mustGiveWay _ := .of_quiet (fun _ => .refl _) fun _ => rfl
  load linear hat := surveys_load s (hat.lt_fourGiB hcode) i.operandBytes_ne_zero i.operandBytes_le_pageSize
  store linear src hat hlen := by
    rw [← hlen]
    have hpos : src.length ≠ 0 := by rw [hlen]; exact i.operandBytes_ne_zero
    have hpage : src.length ≤ pageSize := by rw [hlen]; exact i.operandBytes_le_pageSize
    exact surveys_store s (hat.lt_fourGiB hcode) hpos hpage

end Exec

/-! ## Fetching and running -/

theorem windowAt_lt {cpu : Cpu} (hcode : cpu.codeSize ≠ .b64) {rip linear bias : UInt64} {size : Nat}
    (h : windowAt cpu rip = .ok (linear, bias, size)) : linear.toNat < fourGiB := by
  unfold windowAt at h
  rw [if_neg hcode] at h
  dsimp only at h
  split at h
  case isTrue => cases h
  case isFalse =>
    cases h
    rw [UInt64.toNat_and]
    exact Nat.lt_succ_of_le Nat.and_le_right

namespace Processor

variable (s : Socket ω) {p : Processor}

/-- Outside 64-bit code instructions are fetched below 4 GiB. -/
theorem asked_findTrace (hcode : p.cpu.codeSize ≠ .b64) (v : Survey ω) :
    ∃ asked, (p.findTrace s.surveying v).2.2.asked = v.asked ++ asked ∧
      ∀ t ∈ asked, t.access = .execute ∧ t.linear.toNat < fourGiB := by
  let Q : Survey ω → Prop := fun v' =>
    ∃ asked, v'.asked = v.asked ++ asked ∧ ∀ t ∈ asked, t.access = .execute ∧ t.linear.toNat < fourGiB
  have hstart : Q v := ⟨[], (List.append_nil _).symm, by simp⟩
  have hopen : ∀ rip v', Q v' → Q (openWindow s.surveying.bus s.surveying.guard p.cpu rip v').2 := by
    rintro rip v' ⟨asked, hasked, hlow⟩
    unfold openWindow
    split
    case h_1 => exact ⟨asked, hasked, hlow⟩
    case h_2 linear bias size hat =>
      have hnext : ∀ w, Q ⟨w, v'.asked ++ [⟨linear, .execute⟩]⟩ := by
        intro w
        refine ⟨asked ++ [⟨linear, .execute⟩], by rw [hasked, List.append_assoc], fun t ht => ?_⟩
        rcases List.mem_append.1 ht with ht | ht
        · exact hlow t ht
        · obtain rfl := List.mem_singleton.1 ht
          exact ⟨rfl, windowAt_lt hcode hat⟩
      have htranslate : s.surveying.bus.translate linear .execute p.cpu.cpl v' =
          ((s.bus.translate linear .execute p.cpu.cpl v'.world).1,
            ⟨(s.bus.translate linear .execute p.cpu.cpl v'.world).2, v'.asked ++ [⟨linear, .execute⟩]⟩) := rfl
      rw [htranslate]
      cases (s.bus.translate linear .execute p.cpu.cpl v'.world).1 with
      | error pf => exact hnext _
      | ok addr =>
        dsimp only
        split
        case isTrue => exact hnext _
        case isFalse => exact hnext _
  exact findTrace_keeps (Q := Q) (fun _ _ _ h => h) hopen hstart

/-- Outside 64-bit code an instruction keeps to the trail of its operands, in whatever way it ends. -/
theorem asked_execute (hcode : p.cpu.codeSize ≠ .b64) (limit : Nat) (i : Instr) (v : Survey ω) :
    ∃ asked, (p.execute s.surveying limit i v).2.2.2.asked = v.asked ++ asked ∧
      Trail i.operandBytes (p.execute s.surveying limit i v).1.isOk asked ∧
      (p.execute s.surveying limit i v).2.2.1.cpu.codeSize ≠ .b64 := by
  have hcontext : p.cpu.SameContext (p.cpu.setRip (p.cpu.rip + UInt64.ofNat i.len)) := ⟨rfl, rfl, rfl, rfl, rfl⟩
  obtain ⟨hcontext', asked, hasked, htrail⟩ := (Exec.operandwise_surveys s hcode i).instr
    ⟨p.cpu.rip, limit, p.config.repeatInterval⟩ ⟨_, v, p.retired, false⟩ hcontext
  refine ⟨asked, hasked, htrail, fun h => hcode ?_⟩
  rw [← h]
  exact hcontext'.codeSize.symm

end Processor

/-- Everything that is asked for lies below 4 GiB, but that a load or store of at most eight bytes which straddles 4 GiB
has asked for that too. -/
def Narrow (asked : List Translation) : Prop :=
  ∀ t ∈ asked, t.linear.toNat < fourGiB ∨ t.linear.toNat = fourGiB ∧ t.access ≠ .execute ∧
    ∃ t' ∈ asked, t'.access = t.access ∧ t'.Straddles 8

namespace Narrow

variable {asked asked' : List Translation}

theorem nil : Narrow [] := by
  intro t ht
  cases ht

theorem append (h : Narrow asked) (h' : Narrow asked') : Narrow (asked ++ asked') := by
  intro t ht
  rcases List.mem_append.1 ht with ht | ht
  · refine (h t ht).imp_right fun ⟨hat, hdata, t', ht', hstraddles⟩ => ?_
    exact ⟨hat, hdata, t', List.mem_append_left _ ht', hstraddles⟩
  · refine (h' t ht).imp_right fun ⟨hat, hdata, t', ht', hstraddles⟩ => ?_
    exact ⟨hat, hdata, t', List.mem_append_right _ ht', hstraddles⟩

theorem of_trail {len : Nat} {through : Bool} (h : Trail len through asked) (hlen : len ≤ 8) : Narrow asked := by
  intro t ht
  refine (h.below t ht).imp_right fun ⟨hat, t', ht', haccess, hlow, hbeyond⟩ => ?_
  exact ⟨hat, h.data t ht, t', ht', haccess, hlow, by omega⟩

end Narrow

/-- Neither interrupts nor faults are delivered to 64-bit code. -/
structure Socket.DeliversOutside64 (s : Socket ω) : Prop where
  events : ∀ cpu w, cpu.codeSize ≠ .b64 → (s.delivery.events s.line cpu w).2.1.codeSize ≠ .b64
  fault : ∀ fault rip cpu w, cpu.codeSize ≠ .b64 → (s.delivery.fault fault rip cpu w).2.1.codeSize ≠ .b64

namespace Processor

/-- The processor runs no 64-bit code, and has asked for what such a one asks for. -/
def Surveyed (p : Processor) (v : Survey ω) : Prop := p.cpu.codeSize ≠ .b64 ∧ Narrow v.asked

variable {s : Socket ω} {p : Processor} {v : Survey ω}

namespace Surveyed

theorem serve (hs : s.DeliversOutside64) (h : p.Surveyed v) :
    (serve s.surveying p v).2.1.Surveyed (serve s.surveying p v).2.2 := by
  obtain ⟨hcode, hnarrow⟩ := h
  have hevents := hs.events p.cpu (heard s.surveying v).world hcode
  have hanswer : ∀ {handling : Handling} {cpu : Cpu} {v' : Survey ω},
      s.surveying.delivery.events s.surveying.line p.cpu (heard s.surveying v) = (handling, cpu, v') →
      cpu.codeSize ≠ .b64 ∧ Narrow v'.asked := by
    rintro handling cpu v' ⟨⟩
    exact ⟨hevents, hnarrow⟩
  have hserved := served_serve s.surveying p v
  generalize Processor.serve s.surveying p v = out at hserved ⊢
  cases hserved with
  | quiet => exact ⟨hcode, hnarrow⟩
  | stopped => exact ⟨hcode, hnarrow⟩
  | passed => exact ⟨hcode, hnarrow⟩
  | resumed cpu v' answer => exact hanswer answer
  | exited cpu v' answer => exact hanswer answer

theorem handFault (hs : s.DeliversOutside64) (fault : Fault) (rip : UInt64) (h : p.Surveyed v) :
    (p.handFault s.surveying fault rip v).2.1.Surveyed (p.handFault s.surveying fault rip v).2.2 := by
  obtain ⟨hcode, hnarrow⟩ := h
  have hfault := hs.fault fault rip p.cpu v.world hcode
  have hanswer : ∀ {answer : FaultAnswer} {cpu : Cpu} {v' : Survey ω},
      s.surveying.delivery.fault fault rip p.cpu v = (answer, cpu, v') → cpu.codeSize ≠ .b64 ∧ Narrow v'.asked := by
    rintro answer cpu v' ⟨⟩
    exact ⟨hfault, hnarrow⟩
  have hhanded := handed_handFault s.surveying fault rip p v
  generalize p.handFault s.surveying fault rip v = out at hhanded ⊢
  cases hhanded with
  | retried window closed cpu v' answer => exact ⟨(hanswer answer).1, (hanswer answer).2⟩
  | delivered window closed cpu v' answer => exact ⟨(hanswer answer).1, (hanswer answer).2⟩
  | escalated window closed cpu v' answer => exact ⟨(hanswer answer).1, (hanswer answer).2⟩

theorem findTrace (h : p.Surveyed v) :
    (p.findTrace s.surveying v).2.1.Surveyed (p.findTrace s.surveying v).2.2 := by
  obtain ⟨hcode, hnarrow⟩ := h
  obtain ⟨window, cache, honly⟩ := findTrace_only s.surveying p v
  obtain ⟨asked, hasked, hlow⟩ := asked_findTrace s hcode v
  unfold Surveyed
  rw [honly, hasked]
  exact ⟨hcode, hnarrow.append fun t ht => .inl (hlow t ht).2⟩

theorem stopsAt (rip : UInt64) (len : Nat) (h : p.Surveyed v) :
    (p.stopsAt s.surveying rip len v).2.1.Surveyed (p.stopsAt s.surveying rip len v).2.2 := by
  obtain ⟨resume, honly⟩ := stopsAt_only s.surveying rip len p v
  have hasked : (p.stopsAt s.surveying rip len v).2.2.asked = v.asked := by
    unfold Processor.stopsAt
    split
    case isTrue => rfl
    case isFalse =>
      dsimp only
      split
      case isTrue => rfl
      case isFalse => split <;> rfl
  unfold Surveyed
  rw [honly, hasked]
  exact h

theorem execute (limit : Nat) (i : Instr) (h : p.Surveyed v) :
    (p.execute s.surveying limit i v).2.2.1.Surveyed (p.execute s.surveying limit i v).2.2.2 := by
  obtain ⟨asked, hasked, htrail, hcode⟩ := asked_execute s h.1 limit i v
  unfold Surveyed
  rw [hasked]
  exact ⟨hcode, h.2.append (.of_trail htrail i.operandBytes_le)⟩

theorem step (hs : s.DeliversOutside64) (limit : Nat) (point : Point) (h : p.Surveyed v) :
    (p.step s.surveying limit point v).2.1.Surveyed (p.step s.surveying limit point v).2.2 := by
  cases point with
  | boundary =>
    have hserved := serve (p := { p with linker := p.linker.reset }) hs h
    have hbounded := bounded_stepBoundary s.surveying limit p v
    rw [show p.step s.surveying limit .boundary v = p.stepBoundary s.surveying limit v from rfl]
    generalize p.stepBoundary s.surveying limit v = out at hbounded ⊢
    cases hbounded with
    | left exit p₁ v₁ served => rwa [served] at hserved
    | halted p₁ v₁ served _ => rwa [served] at hserved
    | spent p₁ v₁ served _ _ => rwa [served] at hserved
    | searched p₁ v₁ served _ _ =>
      rw [served] at hserved
      have hfound := findTrace (s := s) hserved
      unfold searched
      generalize p₁.findTrace s.surveying v₁ = out at hfound ⊢
      obtain ⟨fault | slot, p₂, v₂⟩ := out
      · exact handFault hs fault p₁.cpu.rip hfound
      · exact hfound
  | record index left generation branch =>
    have hran : ∀ {i : Instr} {p₁ p₂ : Processor} {v₁ v₂ : Survey ω} {x : Except Fault Flow} {hit : Bool},
        p.stopsAt s.surveying p.cpu.rip i.len v = (false, p₁, v₁) →
        p₁.execute s.surveying limit i v₁ = (x, hit, p₂, v₂) → p₂.Surveyed v₂ := by
      intro i p₁ p₂ v₁ v₂ x hit hpasses hexecuted
      have hstop := stopsAt (s := s) p.cpu.rip i.len h
      rw [hpasses] at hstop
      have hexec := execute (s := s) limit i hstop
      rwa [hexecuted] at hexec
    have hcounted : ∀ {p₁ : Processor} {v₁ : Survey ω} (flow : Flow), p₁.Surveyed v₁ →
        (p₁.counted flow).Surveyed v₁ := by
      intro p₁ v₁ flow h₁
      obtain ⟨retired, honly⟩ := counted_only p₁ flow
      rw [honly]
      exact h₁
    have hrecorded := recorded_stepRecord s.surveying limit index left generation branch p v
    rw [show p.step s.surveying limit (.record index left generation branch) v =
      p.stepRecord s.surveying limit index left generation branch v from rfl]
    generalize p.stepRecord s.surveying limit index left generation branch v = out at hrecorded ⊢
    cases hrecorded with
    | missing => exact h
    | stopped record found p₁ v₁ stops =>
      have hstop := stopsAt (s := s) p.cpu.rip record.instr.len h
      rwa [stops] at hstop
    | faulted record found p₁ v₁ passes fault hit p₂ v₂ executed =>
      exact handFault hs fault p.cpu.rip (hran passes executed)
    | struck record found p₁ v₁ passes flow p₂ v₂ executed => exact hcounted flow (hran passes executed)
    | left record found p₁ v₁ passes flow p₂ v₂ executed _ => exact hcounted flow (hran passes executed)
    | next record found p₁ v₁ passes flow p₂ v₂ executed _ _ _ => exact hcounted flow (hran passes executed)
    | through record found p₁ v₁ passes flow p₂ v₂ executed _ _ =>
      have h₂ := hcounted flow (hran passes executed)
      obtain ⟨linker, cache, honly⟩ :=
        follow_only s.surveying limit (branched index branch flow) (p₂.counted flow) v₂
      dsimp only
      rw [honly]
      exact h₂

end Surveyed

/-- What a processor outside 64-bit code asks to have translated, whatever the bus answers. A search for a trace asks
for addresses below 4 GiB. So does an instruction, but that an operand which straddles 4 GiB goes on there: 4 GiB itself
is asked for in this case only, and always if the instruction gets through. The same holds all along a run in which
nothing is delivered to 64-bit code. -/
theorem survey_outside64 (s : Socket ω) (p : Processor) (hcode : p.cpu.codeSize ≠ .b64) (w : ω) :
    (∀ t ∈ (p.findTrace s.surveying ⟨w, []⟩).2.2.asked, t.access = .execute ∧ t.linear.toNat < fourGiB) ∧
    (∀ limit i, Trail i.operandBytes (p.execute s.surveying limit i ⟨w, []⟩).1.isOk
      (p.execute s.surveying limit i ⟨w, []⟩).2.2.2.asked) ∧
    (s.DeliversOutside64 → ∀ budget, Narrow (p.run s.surveying budget ⟨w, []⟩).2.2.asked) := by
  refine ⟨?_, fun limit i => ?_, fun hs budget => ?_⟩
  · obtain ⟨asked, hasked, hlow⟩ := asked_findTrace s hcode ⟨w, []⟩
    rw [hasked]
    exact hlow
  · obtain ⟨asked, hasked, htrail, -⟩ := asked_execute s hcode limit i ⟨w, []⟩
    rw [hasked]
    exact htrail
  · have hstart : p.Surveyed (⟨w, []⟩ : Survey ω) := ⟨hcode, .nil⟩
    exact (run_induction budget p _ (fun limit point p v h => Surveyed.step hs limit point h) hstart).2

/-- A bus that answers everything, with a guard that wants nothing and events left to the caller. -/
def obliging : Socket Unit where
  bus :=
    { translate _ _ _ w := (.ok 0, w)
      codePage _ _ := none
      read _ len w := (.ok (List.replicate len 0), w)
      write _ _ w := (.ok (), w)
      remaps _ := 0
      stamps _ := .ofPages 0
      mapStamps _ w := w }
  guard := .none
  delivery := .toCaller
  line := { events _ := {}, set _ w := w }

theorem deliversOutside64_obliging : obliging.DeliversOutside64 where
  events cpu w h := by
    show (if _ then { cpu with halted := false } else cpu).codeSize ≠ .b64
    split
    · exact h
    · exact h
  fault _ _ _ _ h := h

/-- A processor of 32-bit code that is to store two bytes below 4 GiB. -/
def straddling : Processor :=
  let config : CoreConfig := { traceSlots := 1, recordPool := 3, maxTraceLen := 2 }
  let cpu := Cpu.new .protectedMode
  { id := 0, config, decode := decodeInstr, cpu := cpu.write .rdi .w64 0xFFFFFFFE
    window := .empty, cache := .new config, linker := .new config, retired := 0, resume := false }

/-- Its store of four bytes is through, and has gone on at 4 GiB. -/
theorem survey_straddling :
    let out := straddling.execute obliging.surveying 1 { op := .string .store .w32, len := 1 } ⟨(), []⟩
    out.1 = .ok .next ∧ ⟨0x100000000, .write⟩ ∈ out.2.2.2.asked ∧
      Narrow (straddling.run obliging.surveying 1 ⟨(), []⟩).2.2.asked := by
  obtain ⟨-, hexecute, hrun⟩ := survey_outside64 obliging straddling (by decide) ()
  have htrail := hexecute 1 { op := .string .store .w32, len := 1 }
  obtain ⟨hok, hmem⟩ :
      (straddling.execute obliging.surveying 1 { op := .string .store .w32, len := 1 } ⟨(), []⟩).1 = .ok .next ∧
      ⟨0xFFFFFFFE, .write⟩ ∈
        (straddling.execute obliging.surveying 1 { op := .string .store .w32, len := 1 } ⟨(), []⟩).2.2.2.asked := by
    decide +kernel
  refine ⟨hok, htrail.onward (by rw [hok]; rfl) _ hmem ⟨?_, ?_⟩, hrun deliversOutside64_obliging 1⟩
  · decide
  · decide

end Processor

end TraceCore
