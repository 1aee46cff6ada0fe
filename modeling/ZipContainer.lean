import ZipContainer.Session
import ZipContainer.Proofs.Draft.Fidelity
import ZipContainer.Proofs.Draft.LifeCycle
import ZipContainer.Proofs.Zip.Limits
import ZipContainer.Proofs.Draft.Ending
import ZipContainer.Proofs.Zip.Recoding
import ZipContainer.Proofs.Zip.Places
import ZipContainer.Proofs.Zip.Overlaps
import ZipContainer.Proofs.Archive.Reporting
import ZipContainer.Proofs.Package.Fidelity
import ZipContainer.Proofs.Zip.Mixtures
import ZipContainer.Proofs.EntryPath.Brackets
import ZipContainer.Proofs.EntryPath.Joining
import ZipContainer.Proofs.Draft.Sharing
import ZipContainer.Proofs.Zip.Corruption
import ZipContainer.Proofs.Zip.Unsupported
import ZipContainer.Proofs.Zip.Scanning
import ZipContainer.Proofs.Zip.Order
import ZipContainer.Proofs.Contents.Histories
