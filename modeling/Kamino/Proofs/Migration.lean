import Kamino.Proofs.Stamps

/-!
# What a migration does to its two nodes

A payload decodes to the entries it was written from as long as their number fits its `u32`, and a
payload that a connection lets through is short enough for that.
-/

namespace Kamino

open Function LittleEndian List DMap Entry

variable {payload : Bytes}

section Payload

variable {es : List Entry}

theorem encodeEntries_of_encodable : ∀ {es : List Entry}, (∀ e ∈ es, e.Encodable) →
    ∀ buf, encodeEntries es buf = .ok (buf ++ es.flatMap record)
  | [], _, buf => by simp [encodeEntries]
  | e :: es, h, buf => by
    rw [encodeEntries, encodeInto_ok (h e mem_cons_self)]
    dsimp only
    rw [encodeEntries_of_encodable fun e he => h e (mem_cons_of_mem _ he)]
    simp

theorem decodeEntries_records : ∀ {es : List Entry}, (∀ e ∈ es, e.Encodable) → ∀ rest,
    decodeEntries es.length (es.flatMap record ++ rest) = .ok es
  | [], _, _ => rfl
  | e :: es, h, rest => by
    have hrest := decodeEntries_records (fun e he => h e (mem_cons_of_mem _ he)) rest
    rw [length_cons, flatMap_cons, append_assoc, decodeEntries, decode_record (h e mem_cons_self)]
    dsimp only
    rw [← e.length_record, drop_left, hrest]
    rfl

theorem decodeEntries_ok : ∀ {count : ℕ} {buf : Bytes} {es : List Entry},
    decodeEntries count buf = .ok es →
      es.length = count ∧ (∀ e ∈ es, e.Encodable) ∧ ∃ rest, buf = es.flatMap record ++ rest
  | 0, buf, es, h => by
    cases h
    simp
  | count + 1, buf, es, h => by
    unfold decodeEntries at h
    split at h
    · cases h
    rename_i entry used hdec
    obtain ⟨rfl, henc, tail, rfl⟩ := decode_ok hdec
    rw [← entry.length_record, drop_left] at h
    rcases hrest : decodeEntries count tail with err | rest <;> rw [hrest] at h
    · cases h
    · obtain rfl := Except.ok.inj h
      obtain ⟨hcount, hes, last, rfl⟩ := decodeEntries_ok hrest
      exact ⟨by rw [length_cons, hcount], forall_mem_cons.2 ⟨henc, hes⟩, last, by simp⟩

theorem length_le_records (es : List Entry) : es.length ≤ (es.flatMap record).length := by
  induction es with
  | nil => simp
  | cons e es ih =>
    have hpos := e.encodedLen_pos
    rw [flatMap_cons, length_append, length_record, length_cons]
    omega

/-- The bytes of a payload whose count fits. -/
def fragmentBytes (part : UInt32) (es : List Entry) : Bytes :=
  fragmentPayloadTagV1 :: (toLe 4 part.toNat ++ (toLe 4 es.length ++ es.flatMap record))

theorem encodeFragmentPayload_eq (part : UInt32) (hlen : es.length < 2 ^ 32)
    (h : ∀ e ∈ es, e.Encodable) : encodeFragmentPayload part es = .ok (fragmentBytes part es) := by
  have hmin : min es.length (2 ^ 32 - 1) = es.length := by omega
  rw [encodeFragmentPayload, hmin, encodeEntries_of_encodable h]
  simp [fragmentBytes]

theorem decodeFragmentPayload_fields {p c : Bytes} (hp : p.length = 4) (hc : c.length = 4)
    (w : Bytes) :
    decodeFragmentPayload (fragmentPayloadTagV1 :: (p ++ (c ++ w))) =
      (decodeEntries (ofLe c) w).map fun es => (UInt32.ofNat (ofLe p), es) := by
  have hp8 : p.drop 8 = [] := drop_eq_nil_of_le (by omega)
  have hw : (c ++ w).drop 4 = w := drop_left' hc
  rw [decodeFragmentPayload, if_neg (by simp), if_neg (by simp [hp, hc]; omega)]
  simp [take_left' hp, drop_append, hp, hp8, hc, take_left' hc, hw]

theorem decodeFragmentPayload_bytes (part : UInt32) (hlen : es.length < 2 ^ 32)
    (h : ∀ e ∈ es, e.Encodable) (tail : Bytes) :
    decodeFragmentPayload (fragmentBytes part es ++ tail) = .ok (part, es) := by
  have hnum : ofLe (toLe 4 es.length) = es.length := ofLe_toLe_of_lt (by omega)
  simp only [fragmentBytes, cons_append, append_assoc]
  rw [decodeFragmentPayload_fields (length_toLe _ _) (length_toLe _ _), hnum,
    decodeEntries_records h, ofLe_toLe_of_lt part.toNat_lt, UInt32.ofNat_toNat]
  rfl

theorem decodeFragmentPayload_prefix {buf : Bytes} {part : UInt32}
    (h : decodeFragmentPayload buf = .ok (part, es)) :
    es.length < 2 ^ 32 ∧ (∀ e ∈ es, e.Encodable) ∧ ∃ tail, buf = fragmentBytes part es ++ tail := by
  rcases buf with _ | ⟨tag, buf⟩
  · cases h
  have hhead : tag = fragmentPayloadTagV1 ∧ 8 ≤ buf.length := by
    rw [decodeFragmentPayload] at h
    split_ifs at h with htag hlen
    exact ⟨not_not.1 htag, by rw [length_cons] at hlen; omega⟩
  obtain ⟨rfl, hlen⟩ := hhead
  obtain ⟨p, buf, rfl, hp⟩ := exists_field 4 buf (by omega)
  rw [length_append, hp] at hlen
  obtain ⟨c, w, rfl, hc⟩ := exists_field 4 buf (by omega)
  have hplt := ofLe_lt p
  have hclt := ofLe_lt c
  rw [hp] at hplt
  rw [hc] at hclt
  rw [decodeFragmentPayload_fields hp hc] at h
  rcases hes : decodeEntries (ofLe c) w with err | es' <;> rw [hes] at h
  · cases h
  obtain ⟨rfl, rfl⟩ := Prod.mk.inj (Except.ok.inj h)
  obtain ⟨hcount, henc, tail, rfl⟩ := decodeEntries_ok hes
  refine ⟨by omega, henc, tail, ?_⟩
  have hp' : toLe 4 (ofLe p) = p := by rw [← hp, toLe_ofLe]
  have hc' : toLe 4 (ofLe c) = c := by rw [← hc, toLe_ofLe]
  simp [fragmentBytes, hcount, hc', UInt32.toNat_ofNat_of_lt' hplt, hp']

theorem decodeFragmentPayload_ok {part : UInt32}
    (h : decodeFragmentPayload payload = .ok (part, es)) :
    ofLe ((payload.drop 5).take 4) ≤ payload.length ∧ ∀ e ∈ es, e.Encodable := by
  obtain ⟨hlen, henc, tail, rfl⟩ := decodeFragmentPayload_prefix h
  have hle := length_le_records es
  have hnum : ofLe (toLe 4 es.length) = es.length := ofLe_toLe_of_lt (by omega)
  refine ⟨?_, henc⟩
  have hc : ofLe (((fragmentBytes part es ++ tail).drop 5).take 4) = es.length := by
    simp [fragmentBytes, drop_left' (length_toLe 4 _), take_left' (length_toLe 4 _), hnum]
  rw [hc, fragmentBytes, length_append, length_cons, length_append, length_append]
  omega

theorem encodeFragmentPayload_ok (part : UInt32) (es : List Entry) (h : ∀ e ∈ es, e.Encodable) :
    ∃ payload, encodeFragmentPayload part es = .ok payload ∧
      payload.length = 9 + (es.flatMap record).length ∧
      (payload.length ≤ defaultMaxBulkSize → decodeFragmentPayload payload = .ok (part, es)) := by
  refine ⟨_, encodeEntries_of_encodable h _, ?_, fun hlen => ?_⟩
  · simp only [length_append, length_cons, length_toLe]
  have hcount : es.length < 2 ^ 32 := by
    have hle := length_le_records es
    simp only [length_append, length_cons, length_toLe, defaultMaxBulkSize] at hlen
    omega
  have hbytes := encodeFragmentPayload_eq part hcount h
  rw [encodeFragmentPayload, encodeEntries_of_encodable h] at hbytes
  rw [Except.ok.inj hbytes, ← append_nil (fragmentBytes part es),
    decodeFragmentPayload_bytes part hcount h]

/-- The format of fragments: what it accepts begins with the payload of what it returns. -/
theorem fragment_payload_exact : (∀ (part : UInt32) (es : List Entry), es.length < 2 ^ 32 →
      (∀ e ∈ es, e.key.length ≤ 255 ∧ e.value.length < 2 ^ 32) →
      ∃ payload, encodeFragmentPayload part es = .ok payload ∧
        (∀ tail, decodeFragmentPayload (payload ++ tail) = .ok (part, es)) ∧
        ∀ k < payload.length, ∃ err, decodeFragmentPayload (payload.take k) = .error err) ∧
    ∀ buf part es, decodeFragmentPayload buf = .ok (part, es) →
      ∃ payload, encodeFragmentPayload part es = .ok payload ∧ payload <+: buf := by
  refine ⟨fun part es hlen hfit => ?_, fun buf part es hok => ?_⟩
  · have henc : ∀ e ∈ es, e.Encodable := fun e he =>
      ⟨(hfit e he).1, Nat.le_of_lt_succ (hfit e he).2⟩
    have htrip := decodeFragmentPayload_bytes part hlen henc
    refine ⟨_, encodeFragmentPayload_eq part hlen henc, htrip, fun k hk => ?_⟩
    rcases hcut : decodeFragmentPayload ((fragmentBytes part es).take k) with err | ⟨part', es'⟩
    · exact ⟨err, rfl⟩
    -- The rest of the payload put back, the cut one would decode to the same, and so begin with
    -- the whole payload.
    · obtain ⟨hlen', henc', tail, htail⟩ := decodeFragmentPayload_prefix hcut
      have hsame := decodeFragmentPayload_bytes part' hlen' henc'
        (tail ++ (fragmentBytes part es).drop k)
      rw [← List.append_assoc, ← htail, List.take_append_drop] at hsame
      have hwhole := htrip []
      rw [List.append_nil, hsame] at hwhole
      obtain ⟨rfl, rfl⟩ := Prod.mk.inj (Except.ok.inj hwhole)
      have hlong := congrArg List.length htail
      rw [List.length_take, List.length_append] at hlong
      omega
  · obtain ⟨hlen, henc, tail, rfl⟩ := decodeFragmentPayload_prefix hok
    exact ⟨_, encodeFragmentPayload_eq part hlen henc, List.prefix_append _ _⟩

end Payload

/-- Whatever the old slot held, the new one holds with at least its stamp. -/
def Covers (old new : Option Entry) : Prop :=
  ∀ e ∈ old, ∃ e' ∈ new, e.timestampNanos ≤ e'.timestampNanos

theorem Covers.refl (o : Option Entry) : Covers o o := fun e he => ⟨e, he, le_refl _⟩

theorem Covers.trans {a b c : Option Entry} (hab : Covers a b) (hbc : Covers b c) : Covers a c := by
  intro e he
  obtain ⟨e₁, h₁, hle₁⟩ := hab e he
  obtain ⟨e₂, h₂, hle₂⟩ := hbc e₁ h₁
  exact ⟨e₂, h₂, hle₁.trans hle₂⟩

theorem covers_some {e : Entry} {o : Option Entry} :
    Covers (some e) o ↔ ∃ e' ∈ o, e.timestampNanos ≤ e'.timestampNanos := by
  simp [Covers]

variable {hkey : UInt64}

namespace Fragment

variable {env : Env} {partitionCount : UInt32} {dmap : Bytes} {part : UInt32} {f f' : Fragment}
  {hkey : UInt64} {e entry : Entry}

/-- Every entry is under its key's hash, and fits a record. -/
def Kept (env : Env) (f : Fragment) : Prop :=
  ∀ hkey e, f.lookup hkey = some e → env.hash64 e.key = hkey ∧ e.Encodable

/-- What `f'` holds, `f` held already, or it is under a hash that `P` allows, where it belongs. -/
def Adds (env : Env) (P : UInt64 → Prop) (f f' : Fragment) : Prop :=
  ∀ hkey e, f'.lookup hkey = some e →
    f.lookup hkey = some e ∨ P hkey ∧ env.hash64 e.key = hkey ∧ e.Encodable

section Adds

variable {P Q : UInt64 → Prop} {f₁ f₂ f₃ : Fragment}

theorem Adds.refl (f : Fragment) : f.Adds env P f := fun _ _ he => .inl he

theorem Adds.trans (h : f₁.Adds env P f₂) (h' : f₂.Adds env P f₃) : f₁.Adds env P f₃ := by
  intro hkey e he
  rcases h' hkey e he with he | hnew
  · exact h hkey e he
  · exact .inr hnew

theorem Adds.mono (h : f₁.Adds env P f₂) (hpq : ∀ hkey, P hkey → Q hkey) : f₁.Adds env Q f₂ :=
  fun hkey e he => (h hkey e he).imp_right fun ⟨hp, hnew⟩ => ⟨hpq hkey hp, hnew⟩

theorem Adds.insert (hkey' : env.hash64 e.key = hkey) (hfit : e.Encodable) :
    f.Adds env (· = hkey) (f.insert hkey e) := by
  intro hk e' he
  by_cases hne : hk = hkey
  · rw [hne, AList.lookup_insert] at he
    obtain rfl := Option.some.inj he
    exact .inr ⟨hne, hne ▸ hkey', hfit⟩
  · rw [AList.lookup_insert_ne hne] at he
    exact .inl he

end Adds

theorem mem_exported (now : Int64) : e ∈ f.exported env partitionCount dmap part now ↔
    ∃ hkey, f.lookup hkey = some e ∧ partitionFor env dmap e.key partitionCount = part ∧
      e.isExpired now = false := by
  simp only [exported, mem_filter, mem_map, Bool.and_eq_true, Bool.not_eq_true',
    decide_eq_true_eq]
  constructor
  · rintro ⟨⟨⟨hkey, e'⟩, hmem, rfl⟩, hexp, hpart⟩
    exact ⟨hkey, HMap.mem_entries_iff.1 hmem, hpart, hexp⟩
  · rintro ⟨hkey, hl, hpart, hexp⟩
    exact ⟨⟨⟨hkey, e⟩, HMap.mem_entries_iff.2 hl, rfl⟩, hexp, hpart⟩

theorem mem_victims : hkey ∈ f.victims env partitionCount dmap part ↔
    ∃ e, f.lookup hkey = some e ∧ partitionFor env dmap e.key partitionCount = part := by
  simp only [victims, mem_map, mem_filter, decide_eq_true_eq]
  constructor
  · rintro ⟨⟨hkey, e⟩, ⟨hmem, hpart⟩, rfl⟩
    exact ⟨e, HMap.mem_entries_iff.1 hmem, hpart⟩
  · rintro ⟨e, hl, hpart⟩
    exact ⟨⟨hkey, e⟩, ⟨HMap.mem_entries_iff.2 hl, hpart⟩, rfl⟩

theorem lookup_deleteAll (hkey : UInt64) : ∀ (hks : List UInt64) (f : Fragment) (deleted : ℕ),
    (f.deleteAll hks deleted).2.lookup hkey = if hkey ∈ hks then none else f.lookup hkey
  | [], f, deleted => by simp [deleteAll]
  | hk :: hks, f, deleted => by
    have hdel := f.lookup_delete hk hkey
    have hrec := fun deleted => lookup_deleteAll hkey hks (f.delete hk).2 deleted
    rw [hdel] at hrec
    have hcons : ∀ deleted, ((f.delete hk).2.deleteAll hks deleted).2.lookup hkey =
        if hkey ∈ hk :: hks then none else f.lookup hkey := by
      intro deleted
      rw [hrec]
      by_cases h : hkey = hk <;> simp [h]
    unfold deleteAll
    split <;> rename_i hd <;> rw [hd] at hcons <;> exact hcons _

theorem lookup_cleared : (f.deleteAll (f.victims env partitionCount dmap part) 0).2.lookup hkey
      = some e ↔
    f.lookup hkey = some e ∧ partitionFor env dmap e.key partitionCount ≠ part := by
  rw [lookup_deleteAll]
  split_ifs with hmem
  · obtain ⟨e', he', hp⟩ := mem_victims.1 hmem
    refine ⟨by simp, fun ⟨he, hne⟩ => ?_⟩
    rw [he'] at he
    exact absurd (Option.some.inj he ▸ hp) hne
  · refine ⟨fun he => ⟨he, fun hp => hmem (mem_victims.2 ⟨e, he, hp⟩)⟩, fun h => h.1⟩

theorem putLww_spec (f : Fragment) (hkey : UInt64) (h : entry.Encodable) :
    ∃ applied f', f.putLww hkey entry = .ok (applied, f') ∧ (applied = false → f' = f) ∧
      Covers (some entry) (f'.lookup hkey) ∧ (∀ hkey', Covers (f.lookup hkey') (f'.lookup hkey')) ∧
      ∀ hkey' e, f'.lookup hkey' = some e → f.lookup hkey' = some e ∨ e = entry ∧ hkey' = hkey := by
  by_cases hnew : ∀ e ∈ f.lookup hkey, e.timestampNanos < entry.timestampNanos
  · refine ⟨true, _, putLww_older entry h hnew, by simp, ?_, fun hkey' => ?_, fun hkey' e he => ?_⟩
    · rw [AList.lookup_insert]
      exact .refl _
    · by_cases hk : hkey' = hkey
      · rw [hk, AList.lookup_insert]
        exact fun old ho => ⟨entry, rfl, (hnew old ho).le⟩
      · rw [AList.lookup_insert_ne hk]
        exact .refl _
    by_cases hk : hkey' = hkey
    · rw [hk, AList.lookup_insert] at he
      exact .inr ⟨(Option.some.inj he).symm, hk⟩
    · rw [AList.lookup_insert_ne hk] at he
      exact .inl he
  · refine ⟨false, f, putLww_not_older entry hnew, by simp, ?_, fun _ => .refl _,
      fun _ _ he => .inl he⟩
    push Not at hnew
    exact covers_some.2 hnew

theorem lookup_of_putLww (h : f.putLww hkey entry = .ok (true, f')) {hkey' : UInt64}
    (he : f'.lookup hkey' = some e) :
    f.lookup hkey' = some e ∨ hkey' = hkey ∧ e = entry ∧ entry.Encodable := by
  obtain ⟨h, -⟩ | ⟨-, -, hfit, rfl⟩ := putLww_ok h
  · cases h
  by_cases hk : hkey' = hkey
  · rw [hk, AList.lookup_insert] at he
    exact .inr ⟨hk, (Option.some.inj he).symm, hfit⟩
  · rw [AList.lookup_insert_ne hk] at he
    exact .inl he

end Fragment

namespace DMap

variable {env : Env} {d : DMap} {key value : Bytes} {o : PutOptions} {clk : ℕ → UInt64}

section Adds

theorem adds_fetchLive (env : Env) (d : DMap) (hkey now : UInt64) :
    d.fragment.Adds env (fun _ => False) (d.fetchLive hkey now).2.fragment :=
  fun _ _ he => .inl (lookup_of_fetchLive he)

theorem adds_put (env : Env) (d : DMap) (key value : Bytes) (o : PutOptions)
    (clk : ℕ → UInt64) : d.fragment.Adds env
      (fun hkey => hkey = env.hash64 key ∧ (d.put env key value o clk).1 = .ok ())
      (d.put env key value o clk).2.fragment := by
  intro hkey e he
  rcases hput : d.put env key value o clk with ⟨err | ⟨⟩, d'⟩
  · rw [hput] at he
    exact .inl (lookup_of_put_error hput he)
  · rcases lookup_of_put he with hold | ⟨rfl, rfl, hfit, -⟩
    · exact .inl hold
    · exact .inr ⟨⟨rfl, rfl⟩, rfl, hfit⟩

theorem adds_putLww (env : Env) (d : DMap) (key value : Bytes) (o : PutOptions)
    (clk : ℕ → UInt64) : d.fragment.Adds env (· = env.hash64 key)
      (d.putLww env key value o clk).2.fragment := by
  unfold putLww
  split
  · exact .refl _
  split
  · exact .refl _
  dsimp only
  split
  · exact .refl _
  split
  · exact .refl _
  · exact .refl _
  rename_i ts _ ttl _ f hf
  intro hkey e he
  have he := lookup_of_evictIfNeeded he
  rcases Fragment.lookup_of_putLww hf he with hold | ⟨rfl, rfl, hfit⟩
  · exact .inl hold
  · exact .inr ⟨rfl, rfl, hfit⟩

theorem adds_touchLastAccess (d : DMap) {entry : Entry}
    (hentry : env.hash64 entry.key = env.hash64 key) (now : UInt64) :
    d.fragment.Adds env (· = env.hash64 key) (d.touchLastAccess env key entry now).fragment := by
  unfold touchLastAccess
  split
  · exact .refl _
  · rename_i f hf
    obtain ⟨hfit, rfl⟩ := Fragment.put_ok hf
    exact .insert hentry hfit

theorem adds_get (hd : d.fragment.Kept env) (key : Bytes) (clk : ℕ → UInt64) :
    d.fragment.Adds env (· = env.hash64 key) (d.get env key clk).2.fragment := by
  have hfetch := adds_fetchLive env d (env.hash64 key) (clk 0)
  unfold get
  split <;> rename_i h <;> rw [h] at hfetch
  · exact hfetch.mono fun _ => False.elim
  · refine (hfetch.mono fun _ => False.elim).trans (adds_touchLastAccess _ ?_ _)
    exact (hd _ _ (lookup_of_fetchLive_some h)).1

theorem adds_readModifyWrite {α : Type} (env : Env) (d : DMap) (guard : Bool) (key : Bytes)
    (clk : ℕ → UInt64) (change : Option Entry → Except ClientError (Bytes × α)) :
    d.fragment.Adds env (fun hkey => hkey = env.hash64 key ∧
        ∃ v, (d.readModifyWrite env guard key clk change).1 = .ok v)
      (d.readModifyWrite env guard key clk change).2.fragment := by
  have hfetch := adds_fetchLive env d (env.hash64 key) (clk 4)
  unfold readModifyWrite
  split_ifs
  · exact .refl _
  dsimp only
  split
  · exact hfetch.mono fun _ => False.elim
  rename_i value _ _
  have hput := adds_put env (d.fetchLive (env.hash64 key) (clk 4)).2 key value {} clk
  split <;> rename_i h <;> rw [h] at hput
  · exact (hfetch.mono fun _ => False.elim).trans (hput.mono fun _ hk => nomatch hk.2)
  · exact (hfetch.mono fun _ => False.elim).trans (hput.mono fun _ hk => ⟨hk.1, _, rfl⟩)

theorem adds_delete (env : Env) (d : DMap) (key : Bytes) :
    d.fragment.Adds env (fun _ => False) (d.delete env key).2.fragment := by
  intro hkey e he
  rw [lookup_delete] at he
  split_ifs at he
  exact .inl he

end Adds

theorem importEntries_spec (env : Env) : ∀ {es : List Entry} (d : DMap) (applied : ℕ),
    (∀ e ∈ es, e.Encodable) → ∃ m d', d.importEntries env es applied = (.ok m, d') ∧
      (∀ e ∈ es, Covers (some e) (d'.fragment.lookup (env.hash64 e.key))) ∧
      (∀ hkey, Covers (d.fragment.lookup hkey) (d'.fragment.lookup hkey)) ∧
      ∀ hkey e, d'.fragment.lookup hkey = some e →
        d.fragment.lookup hkey = some e ∨ e ∈ es ∧ env.hash64 e.key = hkey
  | [], d, applied, _ => ⟨applied, d, rfl, by simp, fun _ => .refl _, fun _ _ h => .inl h⟩
  | entry :: es, d, applied, h => by
    obtain ⟨won, f, hput, hsame, hentry, hkept, horigin⟩ :=
      d.fragment.putLww_spec (env.hash64 entry.key) (h entry mem_cons_self)
    obtain ⟨m, d', hrun, hes, hkept', horigin'⟩ : ∃ m d',
        d.importEntries env (entry :: es) applied = (.ok m, d') ∧
          (∀ e ∈ es, Covers (some e) (d'.fragment.lookup (env.hash64 e.key))) ∧
          (∀ hkey, Covers (f.lookup hkey) (d'.fragment.lookup hkey)) ∧
          ∀ hkey e, d'.fragment.lookup hkey = some e →
            f.lookup hkey = some e ∨ e ∈ es ∧ env.hash64 e.key = hkey := by
      have hes : ∀ e ∈ es, e.Encodable := fun e he => h e (mem_cons_of_mem _ he)
      unfold importEntries
      rw [hput]
      cases won with
      | true => exact importEntries_spec env _ (applied + 1) hes
      | false =>
        rw [hsame rfl]
        exact importEntries_spec env d applied hes
    refine ⟨m, d', hrun, ?_, fun hkey => (hkept hkey).trans (hkept' hkey), fun hkey e he => ?_⟩
    · rintro e he
      rcases mem_cons.1 he with rfl | he
      · exact hentry.trans (hkept' _)
      · exact hes e he
    rcases horigin' hkey e he with hf | ⟨hmem, hhash⟩
    · rcases horigin hkey e hf with hold | ⟨rfl, rfl⟩
      · exact .inl hold
      · exact .inr ⟨mem_cons_self, rfl⟩
    · exact .inr ⟨mem_cons_of_mem _ hmem, hhash⟩

end DMap

namespace Node

variable {env : Env} {partitionCount : UInt32} {n n' : Node} {dmap : Bytes} {part : UInt32}
  {e : Entry}

def Kept (env : Env) (n : Node) : Prop :=
  ∀ dmap hkey e, n.slot dmap hkey = some e → env.hash64 e.key = hkey ∧ e.Encodable

def Adds (env : Env) (W : Bytes → UInt64 → Prop) (n n' : Node) : Prop :=
  ∀ dmap hkey e, n'.slot dmap hkey = some e →
    n.slot dmap hkey = some e ∨ W dmap hkey ∧ env.hash64 e.key = hkey ∧ e.Encodable

variable {W : Bytes → UInt64 → Prop}

theorem Adds.refl (n : Node) : n.Adds env W n :=
  fun _ _ _ he => .inl he

theorem Adds.mono {V : Bytes → UInt64 → Prop} (h : n.Adds env V n')
    (hvw : ∀ dmap hkey, V dmap hkey → W dmap hkey) : n.Adds env W n' :=
  fun dmap hkey e he => (h dmap hkey e he).imp_right fun ⟨hv, hnew⟩ => ⟨hvw dmap hkey hv, hnew⟩

theorem Adds.kept (h : n.Adds env W n') (hn : n.Kept env) : n'.Kept env := by
  intro dmap hkey e he
  rcases h dmap hkey e he with hold | ⟨-, hnew⟩
  · exact hn dmap hkey e hold
  · exact hnew

theorem Adds.slot_none (h : n.Adds env W n')
    (hw : ¬ W dmap hkey) (hn : n.slot dmap hkey = none) : n'.slot dmap hkey = none := by
  refine Option.eq_none_iff_forall_ne_some.2 fun e he => ?_
  rcases h dmap hkey e he with hold | ⟨hd, -⟩
  · rw [hn] at hold
    cases hold
  · exact hw hd

theorem adds_opened (env : Env) (n : Node) (name : Bytes) :
    n.Adds env (fun _ _ => False) (n.opened name) :=
  fun dmap hkey _ he => .inl ((slot_opened n name dmap hkey).symm.trans he)

theorem adds_setDMap {P : UInt64 → Prop} {name : Bytes} {d : DMap}
    (hd : (n.dmapAt name).fragment.Adds env P d.fragment) :
    n.Adds env (fun dmap hkey => dmap = name ∧ P hkey) (n.setDMap name d) := by
  intro dmap hkey e he
  rw [slot_setDMap] at he
  split_ifs at he with hname
  · rw [hname, slot_eq]
    exact (hd hkey e he).imp_right fun ⟨hp, hnew⟩ => ⟨⟨rfl, hp⟩, hnew⟩
  · exact .inl he

theorem kept_dmapAt (hn : n.Kept env) (name : Bytes) : (n.dmapAt name).fragment.Kept env :=
  fun hkey e he => hn name hkey e ((n.slot_eq name hkey).trans he)

/-- The partition has an entry that has not expired. -/
def Live (env : Env) (partitionCount : UInt32) (n : Node) (dmap : Bytes) (part : UInt32)
    (now : Int64) : Prop :=
  ∃ hkey, ∃ e ∈ n.slot dmap hkey,
    partitionFor env dmap e.key partitionCount = part ∧ e.isExpired now = false

theorem exportPartition_spec (hn : n.Kept env) (partitionCount : UInt32) (dmap : Bytes)
    (part : UInt32) (nowMicros : UInt64) :
    ∃ payload es, n.exportPartition env partitionCount dmap part nowMicros = .ok payload ∧
      (∀ e, e ∈ es ↔ ∃ hkey, n.slot dmap hkey = some e ∧
        partitionFor env dmap e.key partitionCount = part ∧
        e.isExpired (microsToNanosI64 nowMicros) = false) ∧
      (payload.length ≤ 9 ↔ es = []) ∧
      (payload.length ≤ defaultMaxBulkSize → decodeFragmentPayload payload = .ok (part, es)) := by
  have hlen : ∀ es : List Entry, 9 + (es.flatMap record).length ≤ 9 ↔ es = [] := by
    intro es
    refine ⟨fun h => ?_, fun h => by simp [h]⟩
    have hle := length_le_records es
    exact length_eq_zero_iff.1 (by omega)
  unfold exportPartition
  rcases hl : n.dmaps.lookup dmap with _ | d
  · obtain ⟨payload, hok, hlen', hdec⟩ := encodeFragmentPayload_ok part [] (by simp)
    refine ⟨payload, [], hok, fun e => ?_, by rw [hlen', hlen], hdec⟩
    simp [slot, hl]
  have hslot : ∀ hkey, n.slot dmap hkey = d.fragment.lookup hkey := by
    intro hkey
    simp [slot, hl]
  obtain ⟨payload, hok, hlen', hdec⟩ := encodeFragmentPayload_ok part
    (d.fragment.exported env partitionCount dmap part (microsToNanosI64 nowMicros))
    fun e he => by
      obtain ⟨hkey, hl', -⟩ := (Fragment.mem_exported _).1 he
      exact (hn dmap hkey e ((hslot hkey).trans hl')).2
  refine ⟨payload, _, hok, fun e => ?_, by rw [hlen', hlen], hdec⟩
  simp only [Fragment.mem_exported, hslot]

theorem slot_clearPartition {dmap' : Bytes} :
    (n.clearPartition env partitionCount dmap part).2.slot dmap' hkey = some e ↔
      n.slot dmap' hkey = some e ∧
        ¬ (dmap' = dmap ∧ partitionFor env dmap e.key partitionCount = part) := by
  unfold clearPartition
  rcases hl : n.dmaps.lookup dmap with _ | d
  · refine ⟨fun he => ⟨he, ?_⟩, fun h => h.1⟩
    rintro ⟨rfl, -⟩
    simp [slot, hl] at he
  dsimp only
  rw [slot_setDMap]
  split_ifs with hd
  · dsimp only
    rw [Fragment.lookup_cleared, hd, slot, hl]
    simp
  · simp [hd]

/-- The entries have been merged into a DMap: each is there or beaten, nothing is lost, and nothing
else has come. -/
structure Imported (env : Env) (n n' : Node) (dmap : Bytes) (es : List Entry) : Prop where
  brought : ∀ e ∈ es, Covers (some e) (n'.slot dmap (env.hash64 e.key))
  kept : ∀ dmap' hkey, Covers (n.slot dmap' hkey) (n'.slot dmap' hkey)
  origin : ∀ dmap' hkey e, n'.slot dmap' hkey = some e →
    n.slot dmap' hkey = some e ∨ dmap' = dmap ∧ e ∈ es ∧ env.hash64 e.key = hkey

theorem importPartition_ok {es : List Entry} (env : Env) (n : Node)
    (dmap : Bytes) (h : decodeFragmentPayload payload = .ok (part, es)) :
    ∃ m n', n.importPartition env dmap part payload = (.ok m, n') ∧ n.Imported env n' dmap es := by
  obtain ⟨m, d', hrun, hes, hkept, horigin⟩ := (n.dmapAt dmap).importEntries_spec env 0
    (decodeFragmentPayload_ok h).2
  refine ⟨m, n.setDMap dmap d', ?_, fun e he => ?_, fun dmap' hkey => ?_, fun dmap' hkey e he => ?_⟩
  · unfold importPartition
    rw [h]
    dsimp only
    rw [if_neg (by simp), getOrCreate_eq]
    dsimp only
    rw [hrun, setDMap_opened]
  · rw [slot_setDMap, if_pos rfl]
    exact hes e he
  · rw [slot_setDMap]
    split_ifs with hd
    · rw [hd, slot_eq]
      exact hkept hkey
    · exact .refl _
  · rw [slot_setDMap] at he
    split_ifs at he with hd
    · rw [hd, slot_eq]
      exact (horigin hkey e he).imp_right fun h => ⟨rfl, h⟩
    · exact .inl he

theorem importPartition_error (env : Env) (n : Node) (dmap : Bytes)
    (h : ∀ es, decodeFragmentPayload payload ≠ .ok (part, es)) :
    ∃ err, n.importPartition env dmap part payload = (.error err, n) := by
  unfold importPartition
  rcases hdec : decodeFragmentPayload payload with err | ⟨embedded, es⟩
  · exact ⟨err, rfl⟩
  dsimp only
  rw [if_pos]
  · exact ⟨_, rfl⟩
  · rintro rfl
    exact h es hdec

theorem receiveFragment_cases (env : Env) (n : Node) (routing : Option Routing) (part : UInt32)
    (type : PartitionType) (dmap payload : Bytes) :
    (∃ f, f ≠ .ok ∧ n.receiveFragment env routing part type dmap payload = (f, n)) ∨
      payload.length ≤ defaultMaxBulkSize ∧
        ∃ es n', decodeFragmentPayload payload = .ok (part, es) ∧
          n.receiveFragment env routing part type dmap payload = (.ok, n') ∧
          n.Imported env n' dmap es := by
  unfold receiveFragment moveFragment
  dsimp only
  split_ifs with hd hp ht ho
  iterate 4 exact .inl ⟨_, by simp [Frame.ok], rfl⟩
  rcases hk : utf8Error dmap 0 with _ | err
  · rw [keyStr_eq_ok.2 hk]
    dsimp only
    by_cases hdec : ∃ es, decodeFragmentPayload payload = .ok (part, es)
    · obtain ⟨es, hdec⟩ := hdec
      obtain ⟨m, n', hrun, himp⟩ := n.importPartition_ok env dmap hdec
      rw [hrun]
      exact .inr ⟨by omega, es, n', hdec, rfl, himp⟩
    · obtain ⟨err, hrun⟩ := n.importPartition_error env dmap (not_exists.1 hdec)
      rw [hrun]
      exact .inl ⟨_, mapClientError_ne_ok err, rfl⟩
  · refine .inl ⟨_, ?_, by simp only [keyStr, hk]; rfl⟩
    simp [Frame.ok]

section Adds

variable {key : Bytes}

theorem adds_of_openKey_error {f : Frame} (h : n.openKey dmap key = (.error f, n'))
    (W : Bytes → UInt64 → Prop) : n.Adds env W n' := by
  rcases (openKey_error h).1 with rfl | rfl
  · exact .refl _
  · exact (adds_opened env n dmap).mono fun _ _ => False.elim

variable {call : DMap → Frame × DMap}

theorem adds_onDMap (dmap key : Bytes)
    {P : UInt64 → Prop} (hcall : utf8Error dmap 0 = none → utf8Error key 0 = none →
      (n.dmapAt dmap).fragment.Adds env P (call (n.dmapAt dmap)).2.fragment) :
    n.Adds env (fun dmap' hkey => dmap' = dmap ∧ P hkey) (n.onDMap dmap key call).2 := by
  unfold onDMap
  split <;> rename_i hopen
  · exact adds_of_openKey_error hopen _
  obtain ⟨hd, hk, rfl, rfl⟩ := openKey_ok hopen
  dsimp only
  rw [setDMap_opened]
  exact adds_setDMap (hcall hd hk)

theorem adds_dmPutPeer (env : Env) (n : Node) (clk : ℕ → UInt64) (dmap key value : Bytes)
    (o : PutOptions) : n.Adds env (fun dmap' hkey => dmap' = dmap ∧ hkey = env.hash64 key)
      (n.dmPutPeer env clk dmap key value o).2 := by
  unfold dmPutPeer
  split <;> rename_i hopen
  · exact adds_of_openKey_error hopen _
  · obtain ⟨-, -, rfl, rfl⟩ := openKey_ok hopen
    have hput := adds_putLww env (n.dmapAt dmap) key value o clk
    split <;> rename_i h <;> rw [h] at hput <;> rw [setDMap_opened] <;> exact adds_setDMap hput

theorem adds_commitPut (env : Env) (n : Node) (rd : Readings) (dmap key value : Bytes)
    (o : PutOptions) : n.Adds env (fun dmap' hkey => dmap' = dmap ∧ hkey = env.hash64 key ∧
        ∃ o', (n.commitPut env rd dmap key value o).1 = .ok o')
      (n.commitPut env rd dmap key value o).2 := by
  unfold commitPut
  split <;> rename_i hopen
  · exact adds_of_openKey_error hopen _
  obtain ⟨-, -, rfl, rfl⟩ := openKey_ok hopen
  dsimp only
  rw [stamp_snd, stamp_opened, opened_lastTs]
  have hput := adds_put env (n.dmapAt dmap) key value (n.stampedOptions o rd.wall) rd.clk
  have hset := adds_setDMap hput
  rw [← setDMap_opened] at hset
  split <;> rename_i h <;> rw [stampedOptions, h] at hset
  · exact hset.mono fun _ _ hw => ⟨hw.1, hw.2.1, _, rfl⟩
  all_goals
    refine hset.mono fun _ _ hw => ?_
    cases hw.2.2

theorem adds_deleteKeys (env : Env) : ∀ (keys : List Bytes) (d : DMap) (deleted : ℤ),
    d.fragment.Adds env (fun _ => False) (deleteKeys env d keys deleted).2.fragment
  | [], _, _ => .refl _
  | key :: keys, d, deleted => by
    have hdel := adds_delete env d key
    unfold deleteKeys
    split
    · exact .refl _
    · split <;> rename_i h <;> rw [h] at hdel <;> exact hdel.trans (adds_deleteKeys env keys _ _)

theorem adds_dmDelLocalCount (env : Env) (n : Node) (dmap : Bytes) (keys : List Bytes) :
    n.Adds env (fun _ _ => False) (n.dmDelLocalCount env dmap keys).2 := by
  unfold dmDelLocalCount dmapHandle
  rcases utf8Error dmap 0 with _ | e
  · simp only [getOrCreate_eq, setDMap_opened]
    exact (adds_setDMap (adds_deleteKeys env keys _ 0)).mono fun _ _ hw => hw.2
  · exact .refl _

theorem adds_dmDelLocal (env : Env) (n : Node) (dmap : Bytes) (keys : List Bytes) :
    n.Adds env (fun _ _ => False) (n.dmDelLocal env dmap keys).2 := by
  have hcount := adds_dmDelLocalCount env n dmap keys
  unfold dmDelLocal
  split <;> rename_i h <;> rw [h] at hcount <;> exact hcount

theorem adds_receiveFragment (env : Env) (n : Node) (routing : Option Routing) (part : UInt32)
    (type : PartitionType) (dmap payload : Bytes) :
    n.Adds env (fun dmap' hkey => dmap' = dmap ∧ payload.length ≤ defaultMaxBulkSize ∧ ∃ es,
        decodeFragmentPayload payload = .ok (part, es) ∧ ∃ e ∈ es, env.hash64 e.key = hkey)
      (n.receiveFragment env routing part type dmap payload).2 := by
  rcases n.receiveFragment_cases env routing part type dmap payload with
    ⟨f, -, hrun⟩ | ⟨hlen, es, n', hdec, hrun, himp⟩ <;> rw [hrun]
  · exact .refl _
  intro dmap' hkey e he
  refine (himp.origin dmap' hkey e he).imp_right fun ⟨hd, hmem, hhash⟩ => ?_
  have hfit := (decodeFragmentPayload_ok hdec).2 e hmem
  exact ⟨⟨hd, hlen, es, hdec, e, hmem, hhash⟩, hhash, hfit⟩

theorem onDMap_of_utf8 (hd : utf8Error dmap 0 = none)
    (hk : utf8Error key 0 = none) : n.onDMap dmap key call =
      ((call (n.dmapAt dmap)).1, n.setDMap dmap (call (n.dmapAt dmap)).2) := by
  rw [onDMap, openKey_of_utf8 hd hk]
  dsimp only
  rw [setDMap_opened]

end Adds

theorem kept_clearPartition (hn : n.Kept env) :
    (n.clearPartition env partitionCount dmap part).2.Kept env :=
  fun dmap' hkey e he => hn dmap' hkey e (slot_clearPartition.1 he).1

end Node

section Requests

/-- The slots a request may add to: its key's, if it writes the key and is not refused. -/
def NodeOp.Into (env : Env) (n : Node) : NodeOp → Bytes → UInt64 → Prop
  | .put rd dmap key value o, dmap', hkey => dmap' = dmap ∧ hkey = env.hash64 key ∧
      ∃ o', (n.commitPut env rd dmap key value o).1 = .ok o'
  | .putPeer _ dmap key _ _, dmap', hkey => dmap' = dmap ∧ hkey = env.hash64 key
  | .incr guard clk dmap key delta, dmap', hkey => dmap' = dmap ∧ hkey = env.hash64 key ∧
      ∃ v, (n.dmIncr env guard dmap key delta clk).1 = .integer v
  | .decr guard clk dmap key delta, dmap', hkey => dmap' = dmap ∧ hkey = env.hash64 key ∧
      ∃ v, (n.dmDecr env guard dmap key delta clk).1 = .integer v
  | .getPut guard clk dmap key value, dmap', hkey => dmap' = dmap ∧ hkey = env.hash64 key ∧
      ∃ v, (n.dmGetPut env guard dmap key value clk).1 = .bulk v
  | .get _ dmap key, dmap', hkey => dmap' = dmap ∧ hkey = env.hash64 key
  | .del _ _, _, _ => False
  | .moveFragment _ part _ dmap payload, dmap', hkey => dmap' = dmap ∧
      payload.length ≤ defaultMaxBulkSize ∧ ∃ es,
        decodeFragmentPayload payload = .ok (part, es) ∧ ∃ e ∈ es, env.hash64 e.key = hkey

variable {env : Env} {n : Node}

/-- A request adds entries only where `Into` says. -/
theorem Node.adds_apply (hn : n.Kept env) (op : NodeOp) :
    n.Adds env (op.Into env n) (n.apply env op) := by
  have hcounts (guard : Bool) (clk : ℕ → UInt64) (dmap key : Bytes) (delta : Int64) :
      n.Adds env ((NodeOp.incr guard clk dmap key delta).Into env n)
        (n.dmIncr env guard dmap key delta clk).2 := by
    refine adds_onDMap dmap key fun hd hk => ?_
    have hincr := adds_readModifyWrite env (n.dmapAt dmap) guard key clk (incremented delta)
    rw [← incr] at hincr
    rw [dmIncr, onDMap_of_utf8 hd hk]
    split <;> rename_i h <;> rw [h] at hincr
    · exact hincr.mono fun _ hk => ⟨hk.1, _, rfl⟩
    · exact hincr.mono fun _ hk => nomatch hk.2
  cases op with
  | put rd dmap key value o => exact adds_commitPut env n rd dmap key value o
  | putPeer clk dmap key value o => exact adds_dmPutPeer env n clk dmap key value o
  | incr guard clk dmap key delta => exact hcounts guard clk dmap key delta
  | decr guard clk dmap key delta => exact hcounts guard clk dmap key (-delta)
  | getPut guard clk dmap key value =>
    refine adds_onDMap dmap key fun hd hk => ?_
    have hput := adds_readModifyWrite env (n.dmapAt dmap) guard key clk (exchanged value (clk 5))
    rw [← getPut] at hput
    rw [dmGetPut, onDMap_of_utf8 hd hk]
    split <;> rename_i h <;> rw [h] at hput
    · exact hput.mono fun _ hk => ⟨hk.1, _, rfl⟩
    · exact hput.mono fun _ hk => nomatch hk.2
  | get clk dmap key =>
    refine adds_onDMap dmap key fun _ _ => ?_
    have hget := adds_get (kept_dmapAt hn dmap) key clk
    split <;> rename_i h <;> rw [h] at hget <;> exact hget
  | del dmap keys => exact adds_dmDelLocal env n dmap keys
  | moveFragment routing part type dmap payload =>
    exact adds_receiveFragment env n routing part type dmap payload

/-- Every request keeps the entries under their hashes. -/
theorem Node.kept_apply (hn : n.Kept env) (op : NodeOp) : (n.apply env op).Kept env :=
  (adds_apply hn op).kept hn

end Requests

end Kamino
