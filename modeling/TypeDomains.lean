import TypeDomains.Main
import TypeDomains.Proofs.Complaints
import TypeDomains.Proofs.Confinement
import TypeDomains.Proofs.Edits
import TypeDomains.Proofs.FormGrammar
import TypeDomains.Proofs.Indifference
import TypeDomains.Proofs.Lawful
import TypeDomains.Proofs.Pipeline
import TypeDomains.Proofs.Rearrangement
import TypeDomains.Proofs.Recompilation
import TypeDomains.Proofs.RoundTrip
import TypeDomains.Proofs.SearchPath
import TypeDomains.Proofs.Splicing
import TypeDomains.Proofs.Viability
import TypeDomains.Proofs.Exactness
import TypeDomains.Proofs.Deltas
import TypeDomains.Proofs.Chains
import TypeDomains.Proofs.Covering
import TypeDomains.Proofs.Violations
import TypeDomains.Proofs.Prefixes
import TypeDomains.Proofs.Provenance
import TypeDomains.Proofs.Concatenation
import TypeDomains.Proofs.IncludeLiterals
import TypeDomains.Proofs.Erasure
import TypeDomains.Proofs.Transforms
import TypeDomains.Proofs.Frames
import TypeDomains.Proofs.Literals
import TypeDomains.Proofs.Summaries
