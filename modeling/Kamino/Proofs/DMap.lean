import Kamino.DMap
import Kamino.Lib.Lww
import Kamino.Proofs.Entry
import Mathlib.Order.Basic

/-!
# What a DMap's writes leave

A fragment slot read as its stamp and value is a last-writer-wins register.
-/

namespace Kamino

open Int64

instance instLinearOrderInt64 : LinearOrder Int64 where
  le_refl := Int64.le_refl
  le_trans _ _ _ := Int64.le_trans
  lt_iff_le_not_ge a b := by
    rw [lt_iff_toInt_lt, le_iff_toInt_le, le_iff_toInt_le]
    omega
  le_antisymm _ _ := Int64.le_antisymm
  le_total := Int64.le_total
  toDecidableLE := inferInstance

section Stamps

theorem toInt_clamp (x : ℤ) : (ofIntClamp x).toInt = max (-2 ^ 63) (min x (2 ^ 63 - 1)) := by
  unfold ofIntClamp
  split_ifs with hlo hhi
  · rw [toInt_minValue] at hlo
    rw [toInt_maxValue] at hhi
    rw [toInt_ofIntLE]
    omega
  · rw [toInt_maxValue] at hhi ⊢
    omega
  · rw [toInt_minValue] at hlo ⊢
    omega

theorem toInt_satAdd_one (x : Int64) :
    (satAdd x 1).toInt = if x.toInt < 2 ^ 63 - 1 then x.toInt + 1 else 2 ^ 63 - 1 := by
  have hlo := x.le_toInt
  have hhi := x.toInt_lt
  have hone : (1 : Int64).toInt = 1 := rfl
  rw [satAdd, hone, toInt_clamp]
  split_ifs <;> omega

theorem lt_satAdd_one {x y : Int64} (hxy : x ≤ y) (hx : x < maxValue) : x < satAdd y 1 := by
  rw [lt_iff_toInt_lt, toInt_satAdd_one]
  rw [le_iff_toInt_le] at hxy
  rw [lt_iff_toInt_lt, toInt_maxValue] at hx
  split_ifs <;> omega

theorem lt_satAdd_one_iff {x y : Int64} (hx : x < maxValue) : x < satAdd y 1 ↔ x ≤ y := by
  refine ⟨fun h => ?_, fun h => lt_satAdd_one h hx⟩
  rw [lt_iff_toInt_lt, toInt_satAdd_one] at h
  rw [le_iff_toInt_le]
  split_ifs at h with hy
  · omega
  · have hlt := x.toInt_lt
    omega

theorem lt_nextLwwTimestamp {x prev : Int64} (hx : x ≤ prev) (hmax : x < maxValue)
    (now : Int64) : x < nextLwwTimestamp prev now :=
  lt_of_lt_of_le (lt_satAdd_one hx hmax) (le_max_left _ _)

theorem nextLwwTimestamp_maxValue (now : Int64) :
    nextLwwTimestamp maxValue now = maxValue := by
  refine le_antisymm (Int64.le_maxValue _) (le_max_of_le_left ?_)
  rw [le_iff_toInt_le, toInt_satAdd_one, toInt_maxValue]
  simp

theorem le_nextLwwTimestamp (prev now : Int64) : prev ≤ nextLwwTimestamp prev now := by
  rcases lt_or_eq_of_le (Int64.le_maxValue prev) with h | h
  · exact le_of_lt (lt_nextLwwTimestamp (le_refl prev) h now)
  · rw [h, nextLwwTimestamp_maxValue]

theorem microsToNanosI64_nonneg (micros : UInt64) : 0 ≤ (microsToNanosI64 micros).toInt := by
  unfold microsToNanosI64
  split_ifs with h
  · have hnat : (ofNat micros.toNat).toInt = micros.toNat := toInt_ofNat_of_lt h
    have hthousand : (1000 : Int64).toInt = 1000 := rfl
    rw [satMul, hnat, hthousand, toInt_clamp]
    omega
  · rw [toInt_maxValue]
    omega

theorem i64OrMax_pos {n : ℕ} (h : n ≠ 0) : 0 < (i64OrMax n).toInt := by
  unfold i64OrMax
  split_ifs with hlt
  · rw [toInt_ofNat_of_lt hlt]
    omega
  · rw [toInt_maxValue]
    omega

theorem satAdd_ne_noTtl {a b : Int64} (ha : 0 ≤ a.toInt) (hb : 0 < b.toInt) :
    satAdd a b ≠ noTtl := by
  intro h
  have hint := congrArg toInt h
  have hzero : noTtl.toInt = 0 := rfl
  rw [satAdd, toInt_clamp, hzero] at hint
  omega

end Stamps

theorem PutOptions.resolveTtlNanos_ok {o : PutOptions} (hv : o.validate = .ok ()) (now : UInt64)
    (ttl : Option ℕ) : ∃ t, o.resolveTtlNanos now ttl = .ok t := by
  unfold PutOptions.resolveTtlNanos
  rw [hv]
  dsimp only
  split <;> exact ⟨_, rfl⟩

def Fits (key value : Bytes) : Prop := key.length ≤ maxKeyLen ∧ value.length ≤ maxValueLen

def Entry.stamped (e : Entry) : Int64 × Bytes := (e.timestampNanos, e.value)

variable {e : Entry}

theorem Entry.isExpired_of_noTtl (h : e.ttlNanos = noTtl) (now : Int64) :
    e.isExpired now = false := by
  simp [Entry.isExpired, h]

namespace Fragment

variable {f f' : Fragment} {hkey : UInt64} {entry : Entry}

theorem put_of_fits (h : Fits entry.key entry.value) :
    f.put hkey entry = .ok (f.insert hkey entry) := by
  rw [put, Entry.encodeInto_ok h]

theorem put_ok (h : f.put hkey entry = .ok f') :
    Fits entry.key entry.value ∧ f' = f.insert hkey entry := by
  by_cases hfit : Fits entry.key entry.value
  · rw [put_of_fits hfit] at h
    cases h
    exact ⟨hfit, rfl⟩
  · obtain ⟨e, he⟩ := Entry.encodeInto_error hfit []
    rw [put, he] at h
    cases h

theorem putLww_newer (h : ∀ e ∈ f.lookup hkey, e.timestampNanos < entry.timestampNanos) :
    f.putLww hkey entry = (f.put hkey entry).map fun f => (true, f) := by
  unfold putLww
  rcases hl : f.lookup hkey with _ | e
  · rfl
  · exact if_neg (not_le.2 (h e hl))

theorem putLww_older (entry : Entry) (hfit : Fits entry.key entry.value)
    (h : ∀ e ∈ f.lookup hkey, e.timestampNanos < entry.timestampNanos) :
    f.putLww hkey entry = .ok (true, f.insert hkey entry) := by
  rw [putLww_newer h, put_of_fits hfit]
  rfl

theorem putLww_not_older (entry : Entry)
    (h : ¬ ∀ e ∈ f.lookup hkey, e.timestampNanos < entry.timestampNanos) :
    f.putLww hkey entry = .ok (false, f) := by
  unfold putLww
  rcases hl : f.lookup hkey with _ | e
  · exact absurd (by simp [hl]) h
  · simp only [hl, Option.mem_some_iff, forall_eq', not_lt] at h
    exact if_pos h

theorem putLww_ok {applied : Bool} (h : f.putLww hkey entry = .ok (applied, f')) :
    applied = false ∧ f' = f ∧ (∃ e ∈ f.lookup hkey, entry.timestampNanos ≤ e.timestampNanos) ∨
      applied = true ∧ (∀ e ∈ f.lookup hkey, e.timestampNanos < entry.timestampNanos) ∧
        Fits entry.key entry.value ∧ f' = f.insert hkey entry := by
  by_cases hnew : ∀ e ∈ f.lookup hkey, e.timestampNanos < entry.timestampNanos
  · rw [putLww_newer hnew] at h
    rcases hp : f.put hkey entry with err | f₁ <;> rw [hp] at h
    · cases h
    · cases h
      exact .inr ⟨rfl, hnew, put_ok hp⟩
  · rw [putLww_not_older entry hnew] at h
    cases h
    push Not at hnew
    exact .inl ⟨rfl, rfl, hnew⟩

theorem putLww_of_fits (f : Fragment) (hkey : UInt64) {entry : Entry}
    (h : Fits entry.key entry.value) :
    ∃ applied f', f.putLww hkey entry = .ok (applied, f') ∧ (applied = false → f' = f) ∧
      (f'.lookup hkey).map Entry.stamped =
        Lww.merge ((f.lookup hkey).map Entry.stamped) entry.timestampNanos entry.value ∧
      ∀ hkey' ≠ hkey, f'.lookup hkey' = f.lookup hkey' := by
  by_cases hnew : ∀ e ∈ f.lookup hkey, e.timestampNanos < entry.timestampNanos
  · refine ⟨true, _, putLww_older entry h hnew, by simp, ?_,
      fun _ hne => AList.lookup_insert_ne hne⟩
    rw [AList.lookup_insert, eq_comm]
    refine Lww.merge_eq_new_iff.2 fun x hx => .inl ?_
    obtain ⟨e, he, rfl⟩ := Option.mem_map.1 hx
    exact hnew e he
  · refine ⟨false, f, putLww_not_older entry hnew, by simp, ?_, fun _ _ => rfl⟩
    push Not at hnew
    obtain ⟨e, he, hle⟩ := hnew
    simp [Option.mem_def.1 he, Lww.merge, Entry.stamped, hle]

theorem lookup_delete (f : Fragment) (hkey hkey' : UInt64) :
    (f.delete hkey).2.lookup hkey' = if hkey' = hkey then none else f.lookup hkey' := by
  split_ifs with h
  · rw [h]
    exact AList.lookup_erase _ _
  · exact AList.lookup_erase_ne h

theorem lookup_of_evictOne {samples : ℕ}
    {choose : List (UInt64 × Int64) → ℕ → List (UInt64 × Int64)}
    (h : (f.evictOne samples choose).2.lookup hkey = some e) : f.lookup hkey = some e := by
  unfold evictOne at h
  split_ifs at h
  · exact h
  dsimp only at h
  split_ifs at h
  · exact h
  split at h
  · exact h
  · rw [lookup_delete] at h
    split_ifs at h
    exact h

end Fragment

namespace DMap

variable {env : Env} {d d' : DMap} {key value : Bytes} {o : PutOptions} {clk : ℕ → UInt64}
  {ts : Int64}

theorem evictIfNeeded_of_not_lru (h : d.options.evictionPolicy ≠ some .lru) :
    d.evictIfNeeded env = d := if_neg h

theorem evictIfNeeded_options (d : DMap) : (d.evictIfNeeded env).options = d.options := by
  unfold evictIfNeeded
  split_ifs <;> rfl

theorem fetchLive_cases (d : DMap) (hkey now : UInt64) :
    d.fetchLive hkey now = (d.fragment.lookup hkey, d) ∨
      d.fetchLive hkey now = (none, { d with fragment := d.fragment.erase hkey }) := by
  unfold fetchLive
  rcases d.fragment.lookup hkey with _ | e
  · exact .inl rfl
  dsimp only
  split_ifs
  · exact .inr rfl
  · exact .inl rfl

@[simp] theorem fetchLive_options (d : DMap) (hkey now : UInt64) :
    (d.fetchLive hkey now).2.options = d.options := by
  rcases d.fetchLive_cases hkey now with h | h <;> rw [h]

theorem lookup_of_fetchLive_some {hkey now : UInt64}
    (h : d.fetchLive hkey now = (some e, d')) : d.fragment.lookup hkey = some e := by
  rcases d.fetchLive_cases hkey now with h' | h' <;> rw [h'] at h
  · exact (Prod.mk.inj h).1
  · cases h

theorem fetchLive_lookup_ne (d : DMap) {hkey hkey' : UInt64} (h : hkey' ≠ hkey) (now : UInt64) :
    (d.fetchLive hkey now).2.fragment.lookup hkey' = d.fragment.lookup hkey' := by
  rcases d.fetchLive_cases hkey now with h' | h' <;> rw [h']
  exact AList.lookup_erase_ne h

theorem fetchLive_of_live {hkey now : UInt64}
    (h : ∀ e ∈ d.fragment.lookup hkey, e.isExpired (microsToNanosI64 now) = false) :
    d.fetchLive hkey now = (d.fragment.lookup hkey, d) := by
  unfold fetchLive
  rcases hl : d.fragment.lookup hkey with _ | e
  · rfl
  · have he := h e hl
    simp [he]

theorem putEntry_ok {ttl : Option ℕ} {m m' : Int64} (hts : o.timestamp = some ts)
    (h : putEntry ttl key value o clk m = (.ok e, m')) :
    e.key = key ∧ e.stamped = (ts, value) ∧ o.resolveTtlNanos (clk 1) ttl = .ok e.ttlNanos := by
  unfold putEntry at h
  split at h
  · cases h
  rename_i ttlNanos httl
  rw [hts] at h
  cases h
  exact ⟨rfl, rfl, httl⟩

theorem fetchLive_monotonicTs (d : DMap) (hkey now : UInt64) :
    (d.fetchLive hkey now).2.monotonicTs = d.monotonicTs := by
  rcases d.fetchLive_cases hkey now with h | h <;> rw [h]

/-- A put fails and stores nothing, or stores its entry and evicts. -/
theorem put_cases {r : Except ClientError Unit} (h : d.put env key value o clk = (r, d')) :
    (∃ err m, r = .error err ∧ (d' = d ∨
        d' = { (d.fetchLive (env.hash64 key) (clk 3)).2 with monotonicTs := m })) ∨
      r = .ok () ∧ o.validate = .ok () ∧ ∃ e m,
        putEntry d.options.ttl key value o clk d.monotonicTs = (.ok e, m) ∧ Fits e.key e.value ∧
        d' = { (d.fetchLive (env.hash64 key) (clk 3)).2 with
          fragment := (d.fetchLive (env.hash64 key) (clk 3)).2.fragment.insert (env.hash64 key) e
          monotonicTs := m }.evictIfNeeded env := by
  unfold put at h
  split at h
  · cases h
    exact .inl ⟨_, 0, rfl, .inl rfl⟩
  rename_i hv
  dsimp only at h
  split_ifs at h
  · cases h
    exact .inl ⟨_, _, rfl, .inr rfl⟩
  · cases h
    exact .inl ⟨_, _, rfl, .inr rfl⟩
  split at h
  · cases h
    exact .inl ⟨_, _, rfl, .inr rfl⟩
  rename_i e m he
  rw [fetchLive_options, fetchLive_monotonicTs] at he
  split at h <;> cases h
  · exact .inl ⟨_, _, rfl, .inr rfl⟩
  · rename_i f hf
    obtain ⟨hfit, rfl⟩ := Fragment.put_ok hf
    exact .inr ⟨rfl, hv, e, m, he, hfit, rfl⟩

theorem put_options (env : Env) (d : DMap) (key value : Bytes) (o : PutOptions)
    (clk : ℕ → UInt64) : (d.put env key value o clk).2.options = d.options := by
  rcases hput : d.put env key value o clk with ⟨r, d'⟩
  rcases put_cases hput with ⟨_, _, -, rfl | rfl⟩ | ⟨-, -, _, _, -, -, rfl⟩
  · rfl
  · exact fetchLive_options _ _ _
  · rw [evictIfNeeded_options]
    exact fetchLive_options _ _ _

theorem put_entry (h : d.put env key value o clk = (.ok (), d'))
    (hl : d.options.evictionPolicy ≠ some .lru) :
    o.validate = .ok () ∧ d'.options = d.options ∧ ∃ e m,
      putEntry d.options.ttl key value o clk d.monotonicTs = (.ok e, m) ∧
      Fits e.key e.value ∧ ∀ hkey, d'.fragment.lookup hkey =
        if hkey = env.hash64 key then some e else d.fragment.lookup hkey := by
  rcases put_cases h with ⟨_, _, h, -⟩ | ⟨-, hv, e, m, he, hfit, rfl⟩
  · cases h
  rw [evictIfNeeded_of_not_lru (by rw [fetchLive_options]; exact hl)]
  refine ⟨hv, fetchLive_options _ _ _, e, m, he, hfit, fun hkey => ?_⟩
  rw [HMap.lookup_insert_eq_ite]
  split_ifs with heq
  · rfl
  · exact fetchLive_lookup_ne d heq _

theorem put_ok (h : d.put env key value o clk = (.ok (), d')) (hts : o.timestamp = some ts)
    (hl : d.options.evictionPolicy ≠ some .lru) :
    o.validate = .ok () ∧ Fits key value ∧ d'.options = d.options ∧ ∃ e : Entry,
      e.stamped = (ts, value) ∧ o.resolveTtlNanos (clk 1) d.options.ttl = .ok e.ttlNanos ∧
      ∀ hkey, d'.fragment.lookup hkey =
        if hkey = env.hash64 key then some e else d.fragment.lookup hkey := by
  obtain ⟨hv, hopt, e, m, he, hfit, hlook⟩ := put_entry h hl
  obtain ⟨hk, hst, httl⟩ := putEntry_ok hts he
  rw [hk, show e.value = value from congrArg Prod.snd hst] at hfit
  exact ⟨hv, hfit, hopt, e, hst, httl, hlook⟩

theorem put_new (env : Env) (h : Fits key value) (ts : Int64) (clk : ℕ → UInt64) :
    ∃ d, (DMap.new {}).put env key value { timestamp := some ts } clk = (.ok (), d) := by
  have hv : PutOptions.validate { timestamp := some ts } = .ok () := rfl
  have hf : (DMap.new {}).fetchLive (env.hash64 key) (clk 3) = (none, DMap.new {}) := rfl
  have he : putEntry none key value { timestamp := some ts } clk 0 =
      (.ok ⟨key, 0, ts, microsToNanosI64 (clk 0), value⟩, max 0 ts) := rfl
  unfold put
  simp only [hv, hf, Bool.false_and, Bool.false_eq_true, if_false]
  dsimp only [new]
  rw [he]
  dsimp only
  rw [Fragment.put_of_fits h]
  exact ⟨_, rfl⟩

theorem put_error {e : ClientError} (h : d.put env key value o clk = (.error e, d'))
    (hq : ∀ e ∈ d.fragment.lookup (env.hash64 key),
      e.isExpired (microsToNanosI64 (clk 3)) = false) :
    d'.options = d.options ∧ d'.fragment = d.fragment := by
  rcases put_cases h with ⟨_, m, -, rfl | rfl⟩ | ⟨h, -⟩
  · exact ⟨rfl, rfl⟩
  · rw [fetchLive_of_live hq]
    exact ⟨rfl, rfl⟩
  · cases h

theorem putLww_of_fits (env : Env) (d : DMap) (clk : ℕ → UInt64) (hv : o.validate = .ok ())
    (hts : o.timestamp = some ts) (hfit : Fits key value)
    (hl : d.options.evictionPolicy ≠ some .lru) :
    ∃ applied d', d.putLww env key value o clk = (.ok applied, d') ∧ d'.options = d.options ∧
      (d'.fragment.lookup (env.hash64 key)).map Entry.stamped =
        Lww.merge ((d.fragment.lookup (env.hash64 key)).map Entry.stamped) ts value ∧
      ∀ hkey ≠ env.hash64 key, d'.fragment.lookup hkey = d.fragment.lookup hkey := by
  obtain ⟨ttl, httl⟩ := PutOptions.resolveTtlNanos_ok hv (clk 1) d.options.ttl
  unfold putLww
  simp only [hv, hts, httl]
  obtain ⟨applied, f', hput, hsame, hslot, hother⟩ :=
    d.fragment.putLww_of_fits (env.hash64 key)
      (show Fits (Entry.mk key ttl ts (microsToNanosI64 (clk 0)) value).key _ from hfit)
  rw [hput]
  cases applied with
  | false =>
    have hf := hsame rfl
    subst hf
    exact ⟨false, _, rfl, rfl, hslot, hother⟩
  | true =>
    dsimp only
    rw [evictIfNeeded_of_not_lru (d := { d with fragment := f', monotonicTs := _ }) hl]
    exact ⟨true, _, rfl, rfl, hslot, hother⟩

theorem lookup_delete (d : DMap) (key : Bytes) (hkey : UInt64) :
    (d.delete env key).2.fragment.lookup hkey =
      if hkey = env.hash64 key then none else d.fragment.lookup hkey :=
  Fragment.lookup_delete _ _ _

section Origins

variable {hkey : UInt64} {e : Entry}

theorem lookup_of_evictLoop {o : DMapOptions} (round : ℕ) (f : Fragment)
    (h : (evictLoop env o round f).lookup hkey = some e) : f.lookup hkey = some e := by
  fun_induction evictLoop env o round f with
  | case1 round f hover f' hev =>
    exact Fragment.lookup_of_evictOne (by rw [hev]; exact h)
  | case2 round f hover f' hev ih =>
    exact Fragment.lookup_of_evictOne (by rw [hev]; exact ih h)
  | case3 round f hover => exact h

theorem lookup_of_evictIfNeeded (h : (d.evictIfNeeded env).fragment.lookup hkey = some e) :
    d.fragment.lookup hkey = some e := by
  unfold evictIfNeeded at h
  split_ifs at h
  · exact lookup_of_evictLoop 0 _ h
  · exact h

theorem lookup_of_fetchLive {hkey' now : UInt64}
    (h : (d.fetchLive hkey' now).2.fragment.lookup hkey = some e) :
    d.fragment.lookup hkey = some e := by
  rcases d.fetchLive_cases hkey' now with h' | h' <;> rw [h'] at h
  · exact h
  · exact HMap.lookup_of_erase h

theorem putEntry_key {ttl : Option ℕ} {m m' : Int64}
    (h : putEntry ttl key value o clk m = (.ok e, m')) :
    e.key = key ∧ ∀ ts, o.timestamp = some ts → e.timestampNanos = ts := by
  unfold putEntry at h
  split at h
  · cases h
  dsimp only at h
  cases h
  refine ⟨rfl, fun ts hts => ?_⟩
  rw [hts]

theorem lookup_of_put (h : (d.put env key value o clk).2.fragment.lookup hkey = some e) :
    d.fragment.lookup hkey = some e ∨ hkey = env.hash64 key ∧ e.key = key ∧ e.Encodable ∧
        ∀ ts, o.timestamp = some ts → e.timestampNanos = ts := by
  rcases hput : d.put env key value o clk with ⟨r, d'⟩
  rw [hput] at h
  rcases put_cases hput with ⟨_, _, -, rfl | rfl⟩ | ⟨-, -, entry, m, hentry, hfit, rfl⟩
  · exact .inl h
  · exact .inl (lookup_of_fetchLive h)
  have h := lookup_of_evictIfNeeded h
  rw [HMap.lookup_insert_eq_ite] at h
  split_ifs at h with hk
  · obtain rfl := Option.some.inj h
    obtain ⟨hkey', hts⟩ := putEntry_key hentry
    exact .inr ⟨hk, hkey', hfit, hts⟩
  · exact .inl (lookup_of_fetchLive h)

theorem lookup_of_put_error {err : ClientError} {d' : DMap}
    (hput : d.put env key value o clk = (.error err, d'))
    (h : d'.fragment.lookup hkey = some e) : d.fragment.lookup hkey = some e := by
  rcases put_cases hput with ⟨_, _, -, rfl | rfl⟩ | ⟨hok, -⟩
  · exact h
  · exact lookup_of_fetchLive h
  · cases hok

end Origins

end DMap

end Kamino
