import SxtEnterprise.StoredData
import SxtEnterprise.ReadOrder
import SxtEnterprise.Locality
import SxtEnterprise.AllOrNothing
import SxtEnterprise.FailedCreate
import SxtEnterprise.Independence
import SxtEnterprise.FiniteMap
import SxtEnterprise.PartialListing
import SxtEnterprise.SetupCache
import SxtEnterprise.Encodings
import SxtEnterprise.ColumnNames
import SxtEnterprise.Coercion
import SxtEnterprise.SupportedTypes
import SxtEnterprise.SampleService
import SxtEnterprise.SelfDescription
import SxtEnterprise.PostedRows
import SxtEnterprise.Audit
import SxtEnterprise.Confinement
import SxtEnterprise.Lifetimes
import SxtEnterprise.Refusals
import SxtEnterprise.Forgeries
import SxtEnterprise.Counts
