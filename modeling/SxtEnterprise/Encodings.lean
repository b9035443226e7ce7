import SxtEnterprise.DbReads
import SxtEnterprise.SampleService

/-!
# Commitments and proofs, encoded and decoded

Commitments are written to files and, base64-encoded, into responses; three decoders read them back and a
fourth reads proofs.  A standard binary encoding is a prefix code (`PrefixCode`): the decoder finds the value
at the start of its input and says how much of the input that took.  None of the four decoders looks at how
much it took, so each accepts an encoding with anything after it (`decoders_read_the_start`).
-/

namespace SxtEnterprise

open NumberedNames Paths FaultyRun

/-! ### Prefix codes -/

/-- The decoder finds the value at the start of its input, whatever follows, and finds no other. -/
structure PrefixCode {α : Type} (encode : α → Option Bytes) (decode : Bytes → Option (α × ℕ)) : Prop where
  decode_append : ∀ a code rest, encode a = some code → decode (code ++ rest) = some (a, code.length)
  encode_decoded : ∀ bytes a n, decode bytes = some (a, n) → encode a = some (bytes.take n)

/-- The bytes are the encoding of `a` and then some. -/
def StartsWith {α : Type} (encode : α → Option Bytes) (bytes : Bytes) (a : α) : Prop :=
  ∃ code rest, encode a = some code ∧ bytes = code ++ rest

namespace PrefixCode

variable {α : Type} {encode : α → Option Bytes} {decode : Bytes → Option (α × ℕ)}

theorem decode_eq_some (h : PrefixCode encode decode) {bytes : Bytes} {a : α} :
    (∃ n, decode bytes = some (a, n)) ↔ StartsWith encode bytes a := by
  constructor
  · rintro ⟨n, hn⟩
    exact ⟨bytes.take n, bytes.drop n, h.encode_decoded _ _ _ hn, (List.take_append_drop n bytes).symm⟩
  · rintro ⟨code, rest, hcode, rfl⟩
    exact ⟨_, h.decode_append a code rest hcode⟩

end PrefixCode

/-! ### The decoders -/

section Decoders

variable {ρ κ σ ω : Type} {L : Libs ρ κ σ} {P : ProofSystem ρ κ σ} {K : Codecs ρ ω}

/-- Base64 is canonical: a text decodes only to the bytes it is the encoding of. -/
def CanonicalBase64 (K : Codecs ρ ω) : Prop :=
  ∀ encoded bytes, K.base64Decode encoded = some bytes ↔ K.base64Encode bytes = encoded

theorem decodeBase64_eq_ok (hk : CanonicalBase64 K) {encoded : Name} {bytes : Bytes} :
    Cli.decodeBase64 K encoded = .ok bytes ↔ K.base64Encode bytes = encoded := by
  rw [Cli.decodeBase64, Outcome.ofOption_eq_ok, hk]

theorem decodeCommitment_eq_ok (hc : PrefixCode L.serialize L.deserialize) (hk : CanonicalBase64 K)
    {encoded : Name} {c : κ} : Cli.decodeCommitment L K encoded = .ok c ↔
      ∃ bytes, K.base64Encode bytes = encoded ∧ StartsWith L.serialize bytes c := by
  simp only [Cli.decodeCommitment, Outcome.bind_eq_ok, decodeBase64_eq_ok hk, Outcome.ofOption_eq_ok,
    Outcome.pure_eq_ok, ← hc.decode_eq_some, Prod.exists]
  constructor
  · rintro ⟨bytes, hb, c', n, hd, rfl⟩
    exact ⟨bytes, hb, n, hd⟩
  · rintro ⟨bytes, hb, n, hd⟩
    exact ⟨bytes, hb, c, n, hd, rfl⟩

theorem decodeProof_eq_ok (hp : PrefixCode P.serializeProof P.deserializeProof) (hk : CanonicalBase64 K)
    {encoded : Name} {proof : P.Proof} : Cli.decodeProof P K encoded = .ok proof ↔
      ∃ bytes, K.base64Encode bytes = encoded ∧ StartsWith P.serializeProof bytes proof := by
  simp only [Cli.decodeProof, Outcome.bind_eq_ok, decodeBase64_eq_ok hk, Outcome.ofOption_eq_ok,
    Outcome.pure_eq_ok, ← hp.decode_eq_some, Prod.exists]
  constructor
  · rintro ⟨bytes, hb, proof', n, hd, rfl⟩
    exact ⟨bytes, hb, n, hd⟩
  · rintro ⟨bytes, hb, n, hd⟩
    exact ⟨bytes, hb, proof, n, hd, rfl⟩

theorem readCommitment_eq_ok (hc : PrefixCode L.serialize L.deserialize) {path : Path} {fs : Fs} {c : κ} :
    (Db.readCommitment L path).eval fs = .ok c ↔ path.hasNul = false ∧
      ∃ bytes, node fs path = some (.file bytes) ∧ StartsWith L.serialize bytes c := by
  simp only [Db.eval_readCommitment_ok, ← hc.decode_eq_some]
  constructor
  · rintro ⟨hnul, bytes, n, hnode, hd⟩
    exact ⟨hnul, bytes, hnode, n, hd⟩
  · rintro ⟨hnul, bytes, hnode, n, hd⟩
    exact ⟨hnul, bytes, n, hnode, hd⟩

theorem reader_pinnedCommitment (dir : Path) (key : Name) : (Cli.pinnedCommitment L dir key).Reader :=
  Disk.reader_read.bind fun _ => (Prog.Reader.ofOption _ _).bind fun _ =>
    (Prog.Reader.ofOption _ _).bind fun _ => Prog.Reader.pure _

/-- What a pinned commitment is: the one in the file its key leads to, under the reference its key is. -/
theorem eval_pinnedCommitment_ok {dir : Path} {key : Name} {fs : Fs} {r : TableRef} {c : κ} :
    (Cli.pinnedCommitment L dir key).eval fs = .ok (r, c) ↔ TableRef.fromStr key = some r ∧
      ((dir.join key).join Db.commitName).hasNul = false ∧
        ∃ bytes n, node fs ((dir.join key).join Db.commitName) = some (.file bytes) ∧
          L.deserialize bytes = some (c, n) := by
  have hparse : ∀ read : κ × ℕ, (do
      let parsed ← Prog.ofOption .tableName (TableRef.fromStr key)
      pure (parsed, read.1) : Io CliError _).Reader :=
    fun _ => (Prog.Reader.ofOption _ _).bind fun _ => Prog.Reader.pure _
  rw [Cli.pinnedCommitment, Disk.reader_read.eval_bind_ok fun bytes =>
    (Prog.Reader.ofOption _ _).bind hparse]
  simp only [(Prog.Reader.ofOption _ _).eval_bind_ok hparse,
    (Prog.Reader.ofOption _ _).eval_bind_ok fun _ => Prog.Reader.pure _, Disk.eval_read_ok, Db.eval_ofOption_ok]
  constructor
  · rintro ⟨bytes, ⟨hnul, hnode⟩, ⟨c', n⟩, hd, r', hr, hpair⟩
    change Outcome.ok (r', c') = _ at hpair
    obtain ⟨rfl, rfl⟩ : r' = r ∧ c' = c := by simpa using hpair
    exact ⟨hr, hnul, bytes, n, hnode, hd⟩
  · rintro ⟨hr, hnul, bytes, n, hnode, hd⟩
    exact ⟨bytes, ⟨hnul, hnode⟩, (c, n), hd, r, hr, rfl⟩

/-- A commitment that was written is in the file. -/
theorem writeCommitment_done {db : Db} {r : TableRef} {c : κ} {w w' : World Fs (Loc Name)} (hr : r.Parsed)
    (h : Db.writeCommitment L (Db.commitPath (db.tableDir r)) c w = (.ok (), w')) :
    (Db.commitPath (db.tableDir r)).hasNul = false ∧ ∃ bytes, L.serialize c = some bytes ∧
      node w'.state (Db.commitPath (db.tableDir r)) = some (.file bytes) := by
  obtain ⟨bytes, w₁, hb, hwrite⟩ := Prog.bind_eq_ok.mp h
  obtain ⟨hserialize, rfl⟩ := Prog.ofOption_eq_ok.mp hb
  obtain ⟨hnul, hlook⟩ := Disk.write_done Db.loc_commitPath hwrite
  refine ⟨hnul, bytes, hserialize, ?_⟩
  rw [Db.commitPath, node_join _ Db.plain_commitName (Db.tableDir_straight db hr)]
  exact hlook

/-- **The decoders read the start of their input.**  What was written or encoded is decoded to itself; and an
input is accepted exactly if it starts with an encoding, whatever comes after it. -/
theorem decoders_read_the_start (hc : PrefixCode L.serialize L.deserialize)
    (hp : PrefixCode P.serializeProof P.deserializeProof) (hk : CanonicalBase64 K) :
    (∀ (db : Db) r c w w', r.Parsed → Db.writeCommitment L (Db.commitPath (db.tableDir r)) c w = (.ok (), w') →
      (Db.readCommitment L (Db.commitPath (db.tableDir r))).eval w'.state = .ok c ∧
        (Cli.pinnedCommitment L (Path.ofLoc db.dir) r.toString).eval w'.state = .ok (r, c)) ∧
    (∀ c encoded, Api.encodeCommitment L K c = .ok encoded → Cli.decodeCommitment L K encoded = .ok c) ∧
    (∀ path fs c, (Db.readCommitment L path).eval fs = .ok c ↔ path.hasNul = false ∧
      ∃ bytes, node fs path = some (.file bytes) ∧ StartsWith L.serialize bytes c) ∧
    (∀ dir key fs r c, (Cli.pinnedCommitment L dir key).eval fs = .ok (r, c) ↔ TableRef.fromStr key = some r ∧
      ((dir.join key).join Db.commitName).hasNul = false ∧
        ∃ bytes, node fs ((dir.join key).join Db.commitName) = some (.file bytes) ∧
          StartsWith L.serialize bytes c) ∧
    (∀ encoded c, Cli.decodeCommitment L K encoded = .ok c ↔
      ∃ bytes, K.base64Encode bytes = encoded ∧ StartsWith L.serialize bytes c) ∧
    (∀ encoded proof, Cli.decodeProof P K encoded = .ok proof ↔
      ∃ bytes, K.base64Encode bytes = encoded ∧ StartsWith P.serializeProof bytes proof) := by
  have hpinned : ∀ dir key fs r c, (Cli.pinnedCommitment L dir key).eval fs = .ok (r, c) ↔
      TableRef.fromStr key = some r ∧ ((dir.join key).join Db.commitName).hasNul = false ∧
        ∃ bytes, node fs ((dir.join key).join Db.commitName) = some (.file bytes) ∧
          StartsWith L.serialize bytes c := by
    intro dir key fs r c
    simp only [eval_pinnedCommitment_ok, ← hc.decode_eq_some, exists_and_left]
  refine ⟨fun db r c w w' hr h => ?_, fun c encoded h => ?_, fun _ _ _ => readCommitment_eq_ok hc, hpinned,
    fun _ _ => decodeCommitment_eq_ok hc hk, fun _ _ => decodeProof_eq_ok hp hk⟩
  · obtain ⟨hnul, bytes, hb, hnode⟩ := writeCommitment_done hr h
    have hstart : StartsWith L.serialize bytes c := ⟨bytes, [], hb, (List.append_nil _).symm⟩
    exact ⟨(readCommitment_eq_ok hc).mpr ⟨hnul, bytes, hnode, hstart⟩,
      (hpinned _ _ _ _ _).mpr ⟨TableRef.fromStr_toString hr, hnul, bytes, hnode, hstart⟩⟩
  · obtain ⟨bytes, hb, hencoded⟩ := Outcome.bind_eq_ok.mp h
    rw [Outcome.ofOption_eq_ok] at hb
    exact (decodeCommitment_eq_ok hc hk).mpr
      ⟨bytes, Outcome.pure_eq_ok.mp hencoded, bytes, [], hb, (List.append_nil _).symm⟩

end Decoders

section Sample

open SampleLibs (ids)
open SampleService

theorem prefixCode : PrefixCode SampleLibs.encode decodeExactly where
  decode_append _ _ rest h := decodeExactly_append rest h
  encode_decoded _ _ _ h := (decodeExactly_eq_some.mp h).2

/-- The commitment of one row, in the sample encoding. -/
def oneRowCommitment : RecordBatch UInt8 := ⟨ids, [7]⟩

/-- A commitment file with its encoding, and `extra` after it. -/
def commitmentFile (extra : Bytes) : Fs :=
  ((FileTree.empty : Fs).setFile [] Db.commitName ([0, 1, 7, 0] ++ extra)).getD FileTree.empty

theorem decoders_read_the_start_sample :
    Cli.decodeProof proofs codecs (codecs.base64Encode [0, 1, 7, 0]) = .ok oneRowCommitment :=
  ((decoders_read_the_start (L := libs) (P := proofs) prefixCode prefixCode
    fun _ _ => ofText_eq_some).2.2.2.2.2 _ oneRowCommitment).mpr ⟨_, rfl, [0, 1, 7, 0], [], rfl, rfl⟩

/-- **Bytes after an encoding are accepted**: three inputs that are not encodings, each decoded all the same. -/
theorem trailing_bytes_are_accepted :
    ((Db.readCommitment libs (Db.commitPath (Path.ofLoc []))).eval (commitmentFile [9]) = .ok oneRowCommitment ∧
      libs.serialize oneRowCommitment ≠ some [0, 1, 7, 0, 9]) ∧
    (Cli.decodeCommitment libs codecs (codecs.base64Encode [0, 1, 7, 0, 9]) = .ok oneRowCommitment ∧
      Api.encodeCommitment libs codecs oneRowCommitment ≠ .ok (codecs.base64Encode [0, 1, 7, 0, 9])) ∧
    Cli.decodeProof proofs codecs (codecs.base64Encode [0, 1, 7, 0, 9]) = .ok oneRowCommitment :=
  ⟨⟨by decide +kernel, by decide +kernel⟩, ⟨by decide +kernel, by decide +kernel⟩, rfl⟩

end Sample

end SxtEnterprise
