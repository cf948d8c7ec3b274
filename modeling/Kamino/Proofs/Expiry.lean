import Kamino.Handlers
import Kamino.Proofs.Migration

/-!
# When an entry expires

The instant a `DM.PUT` asks for is the one all operations go by, except for the start of Unix time:
zero stands for no expiry.
-/

namespace Kamino

/-- The instant the one expiry option asks for, in nanoseconds, at the latest the greatest `i64`. -/
def PutOptions.instant (o : PutOptions) (now : ℤ) : Option ℤ :=
  match o.ex, o.px, o.exat, o.pxat with
  | some s, none, none, none => some (min (now + s.toNat * 1000000000) (2 ^ 63 - 1))
  | none, some ms, none, none => some (min (now + ms.toNat * 1000000) (2 ^ 63 - 1))
  | none, none, some s, none => some (min (s.toNat * 1000000000) (2 ^ 63 - 1))
  | none, none, none, some ms => some (min (ms.toNat * 1000000) (2 ^ 63 - 1))
  | _, _, _, _ => none

theorem toInt_i64OrMax (n : ℕ) : (i64OrMax n).toInt = min (n : ℤ) (2 ^ 63 - 1) := by
  unfold i64OrMax
  split_ifs with h
  · rw [Int64.toInt_ofNat_of_lt h]
    omega
  · rw [Int64.toInt_maxValue]
    omega

theorem toInt_duration (s unit : UInt64) : (i64OrMax (satMulU64 s unit).toNat).toInt =
    min ((s.toNat : ℤ) * unit.toNat) (2 ^ 63 - 1) := by
  rw [toInt_i64OrMax, satMulU64, UInt64.toNat_ofNat_of_lt' (by simp [UInt64.size])]
  push_cast
  omega

theorem resolveTtlNanos_instant {o : PutOptions} {now : UInt64} {ttl : Option ℕ} {t : Int64} {T : ℤ}
    (h : o.resolveTtlNanos now ttl = .ok t)
    (hT : o.instant (microsToNanosI64 now).toInt = some T) : t.toInt = T := by
  have hnow := microsToNanosI64_nonneg now
  have hsec : (1000000000 : UInt64).toNat = 1000000000 := rfl
  have hms : (1000000 : UInt64).toNat = 1000000 := rfl
  unfold PutOptions.resolveTtlNanos at h
  split at h
  · cases h
  obtain ⟨_ | s, _ | ms, _ | s', _ | ms', nx, xx, timestamp⟩ := o <;> cases hT <;> cases h <;>
    simp only [satAdd, toInt_clamp, toInt_duration, hsec, hms] <;> omega

theorem isExpired_eq_false_iff (e : Entry) (now : Int64) :
    e.isExpired now = false ↔ e.ttlNanos.toInt = 0 ∨ now.toInt < e.ttlNanos.toInt := by
  have hzero : e.ttlNanos = noTtl ↔ e.ttlNanos.toInt = 0 := Int64.toInt_inj.symm
  rw [← hzero]
  simp [Entry.isExpired, Int64.lt_iff_toInt_lt, or_iff_not_imp_left]

section Operations

variable (env : Env) (d : DMap) (key : Bytes) (e : Entry)

/-- Every operation takes the entry for live before the instant, and for gone from then on. -/
structure ExpiresAt (T : ℤ) : Prop where
  get : ∀ clk, (∃ r, (d.get env key clk).1 = .ok r) ↔ (microsToNanosI64 (clk 0)).toInt < T
  nx : ∀ value o clk, o.validate = .ok () → o.nx = true →
    ((d.put env key value o clk).1 = .error .keyAlreadyExists ↔
      (microsToNanosI64 (clk 3)).toInt < T)
  xx : ∀ value o clk, o.validate = .ok () → o.xx = true →
    ((d.put env key value o clk).1 = .error .keyNotExists ↔ T ≤ (microsToNanosI64 (clk 3)).toInt)
  exported : ∀ partitionCount dmap now, e ∈ d.fragment.exported env partitionCount dmap
    (partitionFor env dmap key partitionCount) (microsToNanosI64 now) ↔
      (microsToNanosI64 now).toInt < T
  scan : ∀ regex partitionCount now, 0 < partitionCount → (Resp.fromUtf8 key).isSome = true →
    ∃ pairs, d.scan regex partitionCount 0 none now = .ok pairs ∧
      ((key, e.value) ∈ pairs ↔ (microsToNanosI64 now).toInt < T)

variable {env d key e}

theorem put_refused_iff {o : PutOptions} (hv : o.validate = .ok ()) (value : Bytes)
    (clk : ℕ → UInt64) :
    ((d.put env key value o clk).1 = .error .keyAlreadyExists ↔
        o.nx = true ∧ (d.fetchLive (env.hash64 key) (clk 3)).1.isSome = true) ∧
      ((d.put env key value o clk).1 = .error .keyNotExists ↔
        o.xx = true ∧ (d.fetchLive (env.hash64 key) (clk 3)).1.isSome = false) := by
  rcases hf : d.fetchLive (env.hash64 key) (clk 3) with ⟨existing, d'⟩
  obtain ⟨ttl, httl⟩ := PutOptions.resolveTtlNanos_ok hv (clk 1) d'.options.ttl
  have hboth : ¬ (o.nx = true ∧ o.xx = true) := fun hboth => by
    simp [PutOptions.validate, hboth] at hv
  unfold DMap.put putEntry
  simp only [hv, hf, httl]
  split_ifs with hnx hxx
  · simp_all
  · simp_all
  · split <;> simp_all

theorem expiresAt_of_lookup {T : ℤ} (h : d.fragment.lookup (env.hash64 key) = some e)
    (hkey : e.key = key) (honly : ∀ hk e', d.fragment.lookup hk = some e' → e'.key = key → e' = e)
    (hT : ∀ now, e.isExpired now = false ↔ now.toInt < T) : ExpiresAt env d key e T := by
  have hlive (now : UInt64) : (d.fetchLive (env.hash64 key) now).1.isSome = true ↔
      (microsToNanosI64 now).toInt < T := by
    rw [← hT, DMap.fetchLive, h]
    cases hexp : e.isExpired (microsToNanosI64 now) <;> simp [hexp]
  refine ⟨fun clk => ?_, fun value o clk hv hnx => ?_, fun value o clk hv hxx => ?_,
    fun partitionCount dmap now => ?_, fun regex partitionCount now hcount hutf8 => ?_⟩
  · rw [← hlive, DMap.get]
    rcases d.fetchLive (env.hash64 key) (clk 0) with ⟨_ | e', d'⟩ <;> simp
  · rw [(put_refused_iff hv value clk).1, hlive, and_iff_right hnx]
  · rw [(put_refused_iff hv value clk).2, and_iff_right hxx, ← not_lt, ← hlive, Bool.not_eq_true]
  · rw [Fragment.mem_exported, ← hT]
    exact ⟨fun ⟨_, _, _, hexp⟩ => hexp, fun hexp => ⟨_, h, by rw [hkey], hexp⟩⟩
  refine ⟨_, by rw [DMap.scan, if_neg (UInt32.not_le.2 hcount), if_neg (not_not.2 rfl)], ?_⟩
  rw [← hT]
  simp only [List.mem_map, List.mem_filter, Prod.mk.injEq]
  constructor
  · rintro ⟨e', ⟨⟨⟨⟨hk, _⟩, hmem, rfl⟩, hexp⟩, -⟩, hkey', -⟩
    obtain rfl := honly hk _ (HMap.mem_entries_iff.1 hmem) hkey'
    simpa using hexp
  · intro hexp
    exact ⟨e, ⟨⟨⟨⟨_, e⟩, HMap.mem_entries_iff.2 h, rfl⟩, by simp [hexp]⟩, by rwa [hkey]⟩, hkey,
      rfl⟩

/-- A put that asks for an instant is obeyed by all operations, unless that instant is zero. -/
theorem expiry_iff {value : Bytes} {o : PutOptions} {clk : ℕ → UInt64} {d' : DMap} {T : ℤ}
    (hput : d.put env key value o clk = (.ok (), d'))
    (hl : d.options.evictionPolicy ≠ some .lru)
    (honly : ∀ hk e, d.fragment.lookup hk = some e → e.key = key → hk = env.hash64 key)
    (hT : o.instant (microsToNanosI64 (clk 1)).toInt = some T) :
    (∃ e, d'.fragment.lookup (env.hash64 key) = some e ∧ ExpiresAt env d' key e T) ↔ T ≠ 0 := by
  obtain ⟨-, -, e, m, he, -, hlook⟩ := DMap.put_entry hput hl
  obtain ⟨hkey, httl⟩ : e.key = key ∧ o.resolveTtlNanos (clk 1) d.options.ttl = .ok e.ttlNanos := by
    unfold putEntry at he
    split at he <;> cases he
    rename_i httl
    exact ⟨rfl, httl⟩
  have hslot : d'.fragment.lookup (env.hash64 key) = some e := by rw [hlook, if_pos rfl]
  have hinstant := resolveTtlNanos_instant httl hT
  constructor
  · rintro ⟨e', he', hexp⟩ rfl
    obtain rfl := Option.some.inj (hslot.symm.trans he')
    have hout := (hexp.exported 1 [] 0).1 ((Fragment.mem_exported _).2 ⟨_, hslot, by rw [hkey],
      (isExpired_eq_false_iff e _).2 (.inl hinstant)⟩)
    exact absurd hout (microsToNanosI64_nonneg 0).not_gt
  intro hne
  refine ⟨e, hslot, expiresAt_of_lookup hslot hkey (fun hk e' hl' hk' => ?_) fun now => ?_⟩
  · rw [hlook] at hl'
    split_ifs at hl' with hhk
    · exact (Option.some.inj hl').symm
    · exact absurd (honly hk e' hl' hk') hhk
  · rw [isExpired_eq_false_iff, hinstant, or_iff_right hne]

theorem expiry_exat_one :
    let d := ((DMap.new {}).put sumEnv [107] [118] { exat := some 1 } fun _ => 0).2
    ∃ e, d.fragment.lookup (sumEnv.hash64 [107]) = some e ∧
      ExpiresAt sumEnv d [107] e 1000000000 :=
  (expiry_iff (d := DMap.new {}) (o := { exat := some 1 }) (Prod.ext (by decide +kernel) rfl)
    (by decide) (fun _ _ h => by cases h) (by decide +kernel)).2 (by decide)

/-- An entry that was to expire at the start of Unix time is live at the last reading. -/
theorem exat_zero_never_expires :
    let d := ((DMap.new {}).put sumEnv [107] [118] { exat := some 0 } fun _ => 0).2
    PutOptions.instant { exat := some 0 } 0 = some 0 ∧
      (d.get sumEnv [107] fun _ => 18446744073709551615).1.toOption.map (·.value) = some [118] := by
  decide +kernel

end Operations

end Kamino
