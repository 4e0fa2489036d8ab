import GuardedArchive.Engine
import GuardedArchive.Proofs.Effect
import GuardedArchive.Proofs.Path.Spelling
import GuardedArchive.Proofs.FileSystem.Growth
import GuardedArchive.Proofs.FileSystem.Resolution
import GuardedArchive.Proofs.FileSystem.Making
import GuardedArchive.Proofs.FileSystem.Gap
import GuardedArchive.Proofs.Access
import GuardedArchive.Proofs.Entry.Location
import GuardedArchive.Proofs.Zip.Agreement
import GuardedArchive.Proofs.Extraction.Judging
import GuardedArchive.Proofs.Extraction.Handling
import GuardedArchive.Proofs.Extraction.Running
import GuardedArchive.Proofs.Extraction.Confinement
import GuardedArchive.Proofs.Extraction.Escape
import GuardedArchive.Proofs.Extraction.Denotation
import GuardedArchive.Proofs.Extraction.Outcome
import GuardedArchive.Proofs.Extraction.Course
import GuardedArchive.Proofs.Extraction.Bounds
import GuardedArchive.Proofs.FileSystem.Direct
import GuardedArchive.Proofs.Extraction.Stopping
import GuardedArchive.Proofs.FileSystem.Ways
import GuardedArchive.Proofs.Path.Parents
import GuardedArchive.Proofs.Temporary
import GuardedArchive.Proofs.Extraction.Staging
import GuardedArchive.Proofs.Extraction.Target
import GuardedArchive.Proofs.Extraction.Atomic
import GuardedArchive.Proofs.Extraction.Lockstep
import GuardedArchive.Proofs.Extraction.Ordinary
import GuardedArchive.Proofs.Extraction.Concord
import GuardedArchive.Proofs.Zip.Encoding
import GuardedArchive.Proofs.Zip.Scanning
import GuardedArchive.Proofs.Stream
import GuardedArchive.Proofs.Text.Utf8
import GuardedArchive.Proofs.Zip.Inflating
import GuardedArchive.Proofs.Zip.Reading
import GuardedArchive.Proofs.Zip.Writing
import GuardedArchive.Proofs.FileSystem.OpenWays
import GuardedArchive.Proofs.Extraction.Admission
import GuardedArchive.Proofs.Extraction.Acceptance
import GuardedArchive.Proofs.Creation.Plan
import GuardedArchive.Proofs.FileSystem.Walk
import GuardedArchive.Proofs.Creation.Adding
import GuardedArchive.Proofs.Entry.Naming
import GuardedArchive.Proofs.Creation.Contents
import GuardedArchive.Proofs.Creation.Directory
import GuardedArchive.Proofs.Creation.Accepting
import GuardedArchive.Proofs.Creation.RoundTrip
import GuardedArchive.Proofs.Extraction.Reordering
import GuardedArchive.Proofs.Extraction.Loosening
import GuardedArchive.Proofs.Extraction.Listing
import GuardedArchive.Proofs.Creation.AllOrNothing
import GuardedArchive.Proofs.Zip.Decoding
import GuardedArchive.Proofs.Zip.Walking
import GuardedArchive.Proofs.Zip.Widening
import GuardedArchive.Proofs.Zip.Machine
import GuardedArchive.Proofs.Extraction.Resolving
import GuardedArchive.Proofs.Stream.Copying
import GuardedArchive.Proofs.Extraction.Cutting
import GuardedArchive.Proofs.Links
import GuardedArchive.Proofs.Creation.Itself
import GuardedArchive.Proofs.Entry.Cleaning
import GuardedArchive.Proofs.Entry.Grammar
import GuardedArchive.Proofs.Path.Containment
import GuardedArchive.Proofs.Extraction.Refusal
import GuardedArchive.Proofs.Creation.Name
import GuardedArchive.Proofs.Path.Relative
import GuardedArchive.Proofs.Canonical
