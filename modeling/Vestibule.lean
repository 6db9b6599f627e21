import Vestibule.AdminInterleavings
import Vestibule.ConfigSaves
import Vestibule.CopyResult
import Vestibule.DirectCopies
import Vestibule.DocumentCopies
import Vestibule.EncryptedTampering
import Vestibule.HostRouting
import Vestibule.HrefTexts
import Vestibule.KeyedConfigs
import Vestibule.MoveOutcome
import Vestibule.OddFiles
import Vestibule.OverwriteGuards
import Vestibule.Passwords
import Vestibule.PathConfinement
import Vestibule.PathItems
import Vestibule.PlainLoop
import Vestibule.PropfindHrefs
import Vestibule.RandomAccess
import Vestibule.RecursiveCopies
import Vestibule.RedirectRewriting
import Vestibule.Redirects
import Vestibule.ResumedReads
import Vestibule.ServiceListing
import Vestibule.ServingLoop
import Vestibule.Sessions
import Vestibule.SiteDocuments
import Vestibule.StoreCopies
import Vestibule.StrippedPaths
import Vestibule.TransparentEncryption
import Vestibule.UriReferences
import Vestibule.WriteContainment
import Vestibule.XmlAnswers
import Vestibule.XmlBodies
import Vestibule.XmlFaithful
import Vestibule.XmlMarkup
import Vestibule.XmlReader
import Vestibule.XmlTexts
import Vestibule.ZipDownloads
