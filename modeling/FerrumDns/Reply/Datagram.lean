import FerrumDns.Sample

/-! The size of a datagram reply. A response that is too long is cut down once, to its
header, questions and OPT record, and goes out whatever length that leaves. So the
limit is kept exactly when these parts fit by themselves, and an OPT record with long
options from upstream does not. -/

namespace FerrumDns

open Dnsutil

/-! ### Sizes -/

/-- The octets that the encoder takes for a question section and for the data of an option. -/
structure Octets where
  questions : List Query → ℕ
  option : EdnsOption → ℕ

namespace Octets

/-- The fixed part of an OPT record, and each option with its code and length. -/
def opt (s : Octets) (e : Edns) : ℕ := 11 + (e.options.map fun x => 4 + s.option x.2).sum

/-- Header, questions and OPT record. -/
def bare (s : Octets) (m : Message) : ℕ :=
  12 + s.questions m.queries + (m.edns.map s.opt).getD 0

end Octets

/-- The message with the truncation flag and without records. -/
def Message.cut (m : Message) : Message :=
  { m with truncated := true, answers := [], nameServers := [], additionals := [] }

theorem Message.cut_cut (m : Message) : m.cut.cut = m.cut := rfl

variable [Crates]

/-- Truncation sets the flag, keeps questions and OPT record, and drops the record sections. -/
def Crates.Truncates : Prop := ∀ m : Message, Crates.truncate m = m.cut

/-- An encoding is as long as its header, questions and OPT record, and longer only by records;
leaving out the records leaves it possible. -/
structure Crates.Measures (s : Octets) : Prop where
  least : ∀ {m b}, Crates.toVec m = .ok b → s.bare m ≤ b.length
  exact : ∀ {m : Message} {b}, m.answers = [] → m.nameServers = [] → m.additionals = [] →
    Crates.toVec m = .ok b → b.length = s.bare m
  cut : ∀ {m : Message} {b}, Crates.toVec m = .ok b → ∃ b', Crates.toVec m.cut = .ok b'

namespace Datagram

theorem encodeUdp_of_le {m : Message} {b : Bytes} {max : ℕ} (h : encode m = .ok b)
    (hle : b.length ≤ max) : encodeUdp m max = .ok b := by
  simp [encodeUdp, h, hle]

theorem encodeUdp_of_lt {m : Message} {b : Bytes} {max : ℕ} (h : encode m = .ok b)
    (hlt : max < b.length) : encodeUdp m max = encode (Crates.truncate m) := by
  simp [encodeUdp, h, not_le.2 hlt]

/-- What goes out instead of an encoding that is too long is as long as the parts that are kept. -/
theorem length_truncated (ht : Crates.Truncates) {s : Octets} (hs : Crates.Measures s)
    {m : Message} {b : Bytes} {max : ℕ} (h : encode m = .ok b) (hlt : max < b.length) :
    ∃ b', encodeUdp m max = .ok b' ∧ b'.length = s.bare m := by
  obtain ⟨b', hb'⟩ := hs.cut (encode_eq_ok.1 h)
  refine ⟨b', ?_, hs.exact (m := m.cut) rfl rfl rfl hb'⟩
  rw [encodeUdp_of_lt h hlt, ht m]
  exact encode_eq_ok.2 hb'

/-- A datagram keeps the limit, and is the full encoding when that fits, exactly if the header, the
questions and the OPT record of a response that can be encoded fit in the limit. -/
theorem fits_iff (ht : Crates.Truncates) (s : Octets) (hs : Crates.Measures s) (m q : Message) :
    ((∀ b, encodeUdp m (udpPayloadMax q) = .ok b → b.length ≤ udpPayloadMax q) ∧
      ∀ b, encode m = .ok b → b.length ≤ udpPayloadMax q →
        encodeUdp m (udpPayloadMax q) = .ok b) ↔
    ∀ b, encode m = .ok b → s.bare m ≤ udpPayloadMax q := by
  constructor
  · rintro ⟨hfits, -⟩ b hb
    rcases le_or_gt b.length (udpPayloadMax q) with hle | hlt
    · exact (hs.least (encode_eq_ok.1 hb)).trans hle
    · obtain ⟨b', hb', hlen⟩ := length_truncated ht hs hb hlt
      exact hlen ▸ hfits b' hb'
  · refine fun hbare => ⟨fun b hb => ?_, fun b hb hle => encodeUdp_of_le hb hle⟩
    cases hfull : encode m with
    | error e =>
      rw [encodeUdp, hfull] at hb
      cases hb
    | ok full =>
      rcases le_or_gt full.length (udpPayloadMax q) with hle | hlt
      · rw [encodeUdp_of_le hfull hle] at hb
        exact Except.ok.inj hb ▸ hle
      · obtain ⟨b', hb', hlen⟩ := length_truncated ht hs hfull hlt
        rw [hb'] at hb
        exact Except.ok.inj hb ▸ hlen ▸ hbare full hfull

/-! ### A padded answer -/

section Sample

omit [Crates]

open Sample

/-- A client that takes datagrams of this size. -/
def client (payload : UInt16) : Message :=
  { query with edns := some (Edns.new.setMaxPayload payload) }

/-- The address of `a.test.` from an upstream that pads its answers to a block of 512 octets, as such
a client is sent it. -/
def padded (payload : UInt16) : Message :=
  { replySkeleton query .NoError with
    answers := [recordA aTest 60 (Ipv4Addr.ofOctets 192 0 2 1)]
    edns := some ((Edns.new.setMaxPayload payload).insertOption
      (.Unknown 12 (List.replicate 512 0))) }

/-- The size the client takes is in two octets. -/
def paddedOpt (high low : UInt8) : Bytes :=
  [0, 0, 41, high, low, 0, 0, 0, 0, 2, 4, 0, 12, 2, 0] ++ List.replicate 512 0

def paddedWire (high low : UInt8) : Bytes :=
  [0, 1, 129, 128, 0, 1, 0, 1, 0, 0, 0, 1, 1, 97, 4, 116, 101, 115, 116, 0, 0, 1, 0, 1,
    192, 12, 0, 1, 0, 1, 0, 0, 0, 60, 0, 4, 192, 0, 2, 1] ++ paddedOpt high low

def cutWire (high low : UInt8) : Bytes :=
  [0, 1, 131, 128, 0, 1, 0, 0, 0, 0, 0, 1, 1, 97, 4, 116, 101, 115, 116, 0, 0, 1, 0, 1] ++
    paddedOpt high low

/-- It knows the answers to a client that takes 1232 octets and to one that takes 512, whole and
cut. -/
@[reducible] def codec : Crates :=
  crates [(padded 1232, paddedWire 4 208), ((padded 1232).cut, cutWire 4 208),
    (padded 512, paddedWire 2 0), ((padded 512).cut, cutWire 2 0)]

/-- One question, its name written out; an unknown option as it is. -/
def octets : Octets where
  questions qs := (qs.map fun q => (q.name.labels.map fun l => l.length + 1).sum + 5).sum
  option
    | .Subnet cs => 4 + (cs.sourcePrefix.toNat + 7) / 8
    | .Unknown _ data => data.length

theorem measures : @Crates.Measures codec octets := by
  have known {m : Message} {b : Bytes} (h : @Crates.toVec codec m = .ok b) :
      (m = padded 1232 ∧ b = paddedWire 4 208 ∨ m = (padded 1232).cut ∧ b = cutWire 4 208) ∨
        m = padded 512 ∧ b = paddedWire 2 0 ∨ m = (padded 512).cut ∧ b = cutWire 2 0 := by
    simpa [or_assoc] using mem_of_toVec h
  have hcut : @Crates.toVec codec (padded 1232).cut = .ok (cutWire 4 208) := by decide +kernel
  have hcut' : @Crates.toVec codec (padded 512).cut = .ok (cutWire 2 0) := by decide +kernel
  refine @Crates.Measures.mk codec octets (fun h => ?_) (fun ha _ _ h => ?_) fun h => ?_
  · rcases known h with (⟨rfl, rfl⟩ | ⟨rfl, rfl⟩) | ⟨rfl, rfl⟩ | ⟨rfl, rfl⟩
    all_goals decide +kernel
  · rcases known h with (⟨rfl, rfl⟩ | ⟨rfl, rfl⟩) | ⟨rfl, rfl⟩ | ⟨rfl, rfl⟩
    · cases ha
    · decide +kernel
    · cases ha
    · decide +kernel
  · rcases known h with (⟨rfl, rfl⟩ | ⟨rfl, rfl⟩) | ⟨rfl, rfl⟩ | ⟨rfl, rfl⟩
    · exact ⟨_, hcut⟩
    · rw [Message.cut_cut]
      exact ⟨_, hcut⟩
    · exact ⟨_, hcut'⟩
    · rw [Message.cut_cut]
      exact ⟨_, hcut'⟩

/-- To a client that takes 1232 octets the answer goes out whole. -/
theorem fits_iff_roomy : ∃ b : Bytes,
    @encodeUdp codec (padded 1232) (udpPayloadMax (client 1232)) = .ok b ∧ b.length ≤ 1232 := by
  have hwhole : @encodeUdp codec (padded 1232) (udpPayloadMax (client 1232)) =
      .ok (paddedWire 4 208) := by decide +kernel
  have hfits := ((@fits_iff codec (fun _ => rfl) octets measures (padded 1232) (client 1232)).2
    fun _ _ => by decide +kernel).1
  exact ⟨paddedWire 4 208, hwhole, hfits _ hwhole⟩

/-- To a client that takes 512 octets it goes out cut, and is still too long. -/
theorem exceeds : udpPayloadMax (client 512) = 512 ∧ ∃ b,
    @encodeUdp codec (padded 512) (udpPayloadMax (client 512)) = .ok b ∧ b.length = 551 :=
  ⟨by decide, cutWire 2 0, by decide +kernel, by decide +kernel⟩

end Sample

end Datagram

end FerrumDns
